import AddonPlanner.Proofs.Plan.Entries
import AddonPlanner.Proofs.Resolution.Trace

/-!
# What a walk exchanges

A walk takes an installed package out when the bounds in force exclude its version, and puts in whatever the resolution has
found. The bounds may have been narrowed past that version since it was found, so the exchange helps only when no requirement
that had its part in the bounds excludes the new version (`contains_exchanged_iff`). Nothing of the kind happens to a package that
is sound among the available ones (`contains_of_sound`).
-/

namespace AddonPlanner

namespace Planner

variable {pl : Planner} {selected : PackageSet}

/-- The bounds in force for a dependency of a sound package contain its version. -/
theorem contains_of_sound {p d : Package} (hs : p.Sound pl.catalog.available) (hd : d ∈ pl.needs p) {b : Bounds Version}
    (hb : (p.resolution pl.catalog.available pl.host).boundsFor? d.id = some b) : b.contains d.version := by
  obtain ⟨y, hy, hv⟩ := (Search.clean_run hs).bounds d.id b hb
  obtain ⟨-, hne⟩ := hs.mem_dependencies_iff.mp hd
  rcases Package.resolve?_eq_some_iff.mp hy with ⟨hid, -⟩ | ⟨-, hid, hmem⟩
  · exact absurd hid hne
  · rwa [← Keyed.eq_of_key_eq hmem (Package.mem_of_mem_dependencies hd) hid]

/-- Whatever a walk puts in the place of an installed version, the bounds in force exclude the installed version. They contain
the new one exactly when they are not empty and share no version with a requirement on it that excludes it; then the two
versions differ. So it is whenever the walked package is sound among the available ones. -/
theorem contains_exchanged_iff (c : Changes) (p d : Package) (hd : d ∈ (pl.walk selected c p).updates) (hnew : d ∉ c.updates) :
    ∃ present ∈ pl.catalog.installed, present.id = d.id ∧ (pl.walk selected c p).replaced.contains present.id ∧
      ∃ b, (p.resolution pl.catalog.available pl.host).boundsFor? d.id = some b ∧ b.contains present.version = false ∧
        (b.contains d.version ↔ (∃ v, b.contains v) ∧
          ∀ x, (x = p ∨ x ∈ pl.needs p) → ∀ r ∈ x.requirements, r.id = d.id → r.bounds.contains d.version = false →
            ∀ v, ¬ (b.contains v ∧ r.bounds.contains v)) ∧
        (b.contains d.version → (d.version == present.version) = false) ∧
        (pl.isBroken pl.catalog.available p = false → b.contains d.version) := by
  rw [walk_eq_foldl] at hd ⊢
  obtain ⟨present, he⟩ := (Changes.mem_updates_foldl_edit hd).resolve_left hnew
  obtain ⟨hneeded, -, -, hinst, b, hb, hout⟩ := exchange_mem_walkEdits.mp he
  obtain ⟨hpresent, hid⟩ := Keyed.get?_eq_some_iff.mp hinst
  refine ⟨present, hpresent, hid, (Changes.made_foldl_edit he).1, b, hb, hout, ?_, ?_, ?_⟩
  · exact Package.contains_boundsFor?_iff hb d.version
  · intro hv
    refine Bool.eq_false_iff.mpr fun heq => ?_
    rw [Bounds.contains_congr (Ordering.isEq_iff_eq_eq.mp heq), hout] at hv
    cases hv
  · intro hsound
    exact contains_of_sound (isBroken_eq_false_iff.mp hsound) hneeded hb

end Planner

/-- The version `3`. -/
def Version.three : Version := ⟨0, "3", by decide⟩

namespace Planner

/-- A mixer, which needs a chorus and a reverb. -/
def mixer : Package := ⟨"mixer", .one, none, [⟨"chorus", .any⟩, ⟨"reverb", .any⟩], .available⟩

/-- A limiter, which needs the next codec. -/
def limiter : Package := ⟨"limiter", .one, none, [⟨"codec", .atLeast .two⟩], .available⟩

/-- A host where the chorus asks for a codec that does not exist yet, while any codec will do for the reverb. -/
def rack : Planner where
  catalog :=
    { installed := .ofList [⟨"codec", .one, none, [], .installed⟩]
      available := .ofList [⟨"chorus", .one, none, [⟨"codec", .atLeast .three⟩], .available⟩,
        ⟨"codec", .two, none, [], .available⟩, limiter, mixer, ⟨"reverb", .one, none, [⟨"codec", .any⟩], .available⟩] }
  host := .eleven

/-- The mixer has the codec replaced by a version that the bounds on it exclude like the installed one: the codec was found for
the reverb, before the chorus was looked at. -/
theorem mixer_exchanges_codec_in_vain :
    ((rack.walk (.ofList [mixer]) {} mixer).replaced.keys = ["codec"] ∧
      (rack.walk (.ofList [mixer]) {} mixer).updates.keys = ["codec"]) ∧
    ((rack.plan .install (.ofList [mixer])).replaced.keys = ["codec"] ∧
      (rack.plan .install (.ofList [mixer])).updates.keys = ["codec"]) ∧
    ((rack.walk (.ofList [mixer]) {} mixer).updates.get? "codec").map (·.version.display) = some "2" ∧
      ((mixer.resolution rack.catalog.available rack.host).boundsFor? "codec").map (·.contains .two) = some false := by
  decide +kernel

/-- The limiter has the codec replaced by a version within the bounds. -/
theorem limiter_exchanges_codec :
    ∃ d ∈ (rack.walk (.ofList [limiter]) {} limiter).updates, d.id = "codec" ∧ d ∉ ({} : Changes).updates ∧
      ∃ b, (limiter.resolution rack.catalog.available rack.host).boundsFor? d.id = some b ∧ b.contains d.version := by
  have hcodec : (rack.walk (.ofList [limiter]) {} limiter).updates.contains "codec" := by decide +kernel
  obtain ⟨d, hd, hid⟩ := Keyed.exists_mem_of_contains hcodec
  obtain ⟨present, -, -, -, b, hb, -, -, -, hsound⟩ := contains_exchanged_iff {} limiter d hd List.not_mem_nil
  exact ⟨d, hd, hid, List.not_mem_nil, b, hb, hsound (by decide +kernel)⟩

end Planner

end AddonPlanner
