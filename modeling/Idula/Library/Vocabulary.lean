import Mathlib.Data.List.Nodup
import Mathlib.Logic.Function.Basic

/-! Finite vocabularies: members that have each a name of its own, and the functions that
look a word up among them. -/
namespace Idula.Library
variable {α β : Type*}

structure Vocabulary (α β : Type*) where
  members : List α
  name : α → β
  mem_members : ∀ v, v ∈ members
  nodup_names : (members.map name).Nodup

namespace Vocabulary
variable {V : Vocabulary α β} {f : β → Option α} {s : β} {v : α}

theorem name_injective (V : Vocabulary α β) : Function.Injective V.name := fun v w h =>
  List.inj_on_of_nodup_map V.nodup_names (V.mem_members v) (V.mem_members w) h

/-- The answer to s is the member that s names, or no match where it names none. -/
structure RecognisedAt (V : Vocabulary α β) (f : β → Option α) (s : β) : Prop where
  returns_iff : ∀ v, f s = some v ↔ s = V.name v
  no_match : (∀ v, s ≠ V.name v) → f s = none

theorem recognisedAt_iff : V.RecognisedAt f s ↔ ∀ v, f s = some v ↔ s = V.name v := by
  refine ⟨RecognisedAt.returns_iff, fun h => ⟨h, fun hs => ?_⟩⟩
  exact Option.eq_none_iff_forall_ne_some.mpr fun v hv => hs v ((h v).mp hv)

/-- Every word is recognised by the partial inverses of the naming, and by nothing else. -/
theorem forall_recognisedAt_iff : (∀ s, V.RecognisedAt f s) ↔ Function.IsPartialInv V.name f := by
  simp only [recognisedAt_iff, Function.IsPartialInv, eq_comm (a := V.name _)]
  exact forall_comm

/-- A lookup that always returns a member is right where this member is the one named. -/
theorem recognisedAt_total_iff {g : β → α} :
    V.RecognisedAt (fun s => some (g s)) s ↔ s = V.name (g s) := by
  rw [recognisedAt_iff]
  constructor
  · intro h
    exact (h (g s)).mp rfl
  · intro hs v
    rw [Option.some_inj, ← V.name_injective.eq_iff, ← hs]

/-- The first of vs with the text s. -/
def scan [DecidableEq β] (text : α → Option β) (vs : List α) (s : β) : Option α :=
  vs.find? fun v => text v = some s

variable [DecidableEq β] {text : α → Option β} {vs : List α}

private theorem of_scan_eq_some (h : scan text vs s = some v) : v ∈ vs ∧ text v = some s := by
  rw [scan] at h
  exact ⟨List.mem_of_find?_eq_some h, by simpa using List.find?_some h⟩

theorem scan_eq_some_iff (ht : ∀ v s, text v = some s → s = V.name v) :
    scan text vs s = some v ↔ v ∈ vs ∧ text v = some s := by
  refine ⟨of_scan_eq_some, ?_⟩
  rintro ⟨hm, hv⟩
  cases h : scan text vs s with
  | none => exact absurd (decide_eq_true hv) (List.find?_eq_none.mp h v hm)
  | some w =>
    obtain ⟨_, hw⟩ := of_scan_eq_some h
    rw [V.name_injective ((ht w s hw).symm.trans (ht v s hv))]

/-- A scan recognises a word when it goes through the member of that name and sees its name. -/
theorem recognisedAt_scan_iff (ht : ∀ v s, text v = some s → s = V.name v) :
    V.RecognisedAt (scan text vs) s ↔ ∀ v, s = V.name v → v ∈ vs ∧ text v = some s := by
  simp only [recognisedAt_iff, scan_eq_some_iff ht]
  refine forall_congr' fun v => ⟨Iff.mpr, fun h => ⟨fun hv => ht v s hv.2, h⟩⟩

/-- A scan that sees nothing is right on the words that name nothing. -/
theorem recognisedAt_scan_iff_of_unseen (ht : ∀ v s, text v = some s → s = V.name v)
    (hn : ∀ v ∈ vs, text v ≠ some s) :
    V.RecognisedAt (scan text vs) s ↔ ∀ v, s ≠ V.name v := by
  rw [recognisedAt_scan_iff ht]
  refine forall_congr' fun v => ⟨fun h hs => ?_, fun h hs => absurd hs h⟩
  obtain ⟨hm, hv⟩ := h hs
  exact hn v hm hv

end Idula.Library.Vocabulary
