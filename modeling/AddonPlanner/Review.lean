import AddonPlanner.Dependents
import AddonPlanner.Plan
import AddonPlanner.Removal

/-!
# Reviews

What someone should see before accepting a plan or a removal, and when there is no need to ask. Asking is left to the caller,
in whatever monad the answer comes from.
-/

namespace AddonPlanner

/-- What a plan does besides what was asked for. -/
structure Review where
  /-- What the selection is meant for. -/
  goal : Goal
  /-- The version of the host. -/
  host : HostVersion
  /-- The packages that were asked for. -/
  selected : PackageSet
  /-- The selected packages that need a newer host. -/
  selectedNeedingHost : PackageSet
  /-- The packages installed besides the selected ones. -/
  installs : PackageSet
  /-- The packages updated besides the selected ones. -/
  updates : PackageSet
  /-- The packages removed. -/
  removals : PackageSet
  /-- The installed packages that stay and depend on something updated. -/
  dependents : PackageSet

namespace Review

/-- There is something to confirm when anything but the selection changes, or when a selected package does not run on the
host. -/
def needsConfirmation (r : Review) : Bool :=
  !(r.removals.isEmpty && r.updates.isEmpty && r.installs.isEmpty && r.dependents.isEmpty && r.selectedNeedingHost.isEmpty)

/-- The number of reviewed packages that need a newer host. -/
def hostIssueCount (r : Review) : Nat :=
  r.selectedNeedingHost.size +
    (r.updates.toList ++ r.installs.toList ++ r.dependents.toList).countP (!·.runsOn r.host)

end Review

/-- What a removal does besides what was asked for. -/
structure RemovalReview where
  /-- The packages that were asked for. -/
  selected : PackageSet
  /-- The packages removed only because they depend on something that is removed. -/
  forced : PackageSet
  /-- Whether a package being fetched requires something that is removed. -/
  neededByDownloads : Bool

/-- A removal is always confirmed. -/
def RemovalReview.needsConfirmation (_ : RemovalReview) : Bool :=
  true

/-- The review of a removal, with the packages that are being fetched for a later installation. -/
def Removal.review (r : Removal) (downloads : PackageSet) : RemovalReview where
  selected := r.selected
  forced := r.forced
  neededByDownloads := downloads.toList.any (·.requiresAny r.forced) || downloads.toList.any (·.requiresAny r.selected)

namespace Planner

/-- The review of a plan. -/
def review (pl : Planner) (plan : Plan) : Review where
  goal := plan.goal
  host := pl.host
  selected := plan.selected
  selectedNeedingHost := plan.selected.filter (!·.runsOn pl.host)
  installs :=
    match plan.goal with
    | .install => plan.installs.diff plan.selected
    | .update => plan.installs
  updates :=
    match plan.goal with
    | .install => plan.updates
    | .update => plan.updates.diff plan.selected
  removals := plan.removals
  dependents := pl.catalog.dependents plan.updates plan.removals

variable {m : Type → Type} [Monad m]

/-- Whether a plan is accepted: asks when there is something to confirm, and accepts otherwise. -/
def confirm (pl : Planner) (ask : Review → m Bool) (plan : Plan) : m Bool :=
  let review := pl.review plan
  if review.needsConfirmation then ask review else pure true

end Planner

/-- Whether a removal is accepted: asks in any case. -/
def Removal.confirm {m : Type → Type} (ask : RemovalReview → m Bool) (r : Removal) (downloads : PackageSet) : m Bool :=
  ask (r.review downloads)

end AddonPlanner
