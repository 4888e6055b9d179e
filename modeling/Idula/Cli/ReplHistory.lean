import Idula.Cli.Repl

/-! The history of the repl loop: when its slices still show what they were appended
for, over whole runs. -/
namespace Idula.Cli.ReplHistory
open Zig Library.Overlay Repl
variable {b : Buf} {rs : List Read}

/-- At every iteration hist shows what each entry showed when it was appended. -/
def Faithful (b : Buf) (rs : List Read) : Prop :=
  ∀ k, seen (repl b (rs.take k)) = recorded (start b) (rs.take k)

/-- An accepted read and a later one begin alike, up to the end of the shorter. -/
def Undisturbed (r later : Read) : Prop := Accepted r → Nested r.bytes later.bytes

instance (r later : Read) : Decidable (Undisturbed r later) :=
  inferInstanceAs (Decidable (_ → _))

/-- Accepted, as a test on the bytes of a read. -/
private def kept (a : Str) : Bool := a.length ≠ bufLen

private theorem filter_kept (rs : List Read) : (rs.map Read.bytes).filter kept = accepted rs := by
  rw [List.filter_map]
  rfl

private theorem map_take_eq_self {α : Type*} {w : List α} {as : List (List α)} :
    as.map (fun a => w.take a.length) = as ↔ ∀ a ∈ as, a <+: w :=
  calc
    _ ↔ as.map (fun a => w.take a.length) = as.map id := by rw [List.map_id]
    _ ↔ ∀ a ∈ as, a <+: w := by
      rw [List.map_inj_left]
      exact forall₂_congr fun a _ => eq_comm.trans List.prefix_iff_eq_take.symm

/-- At one moment the entries are right exactly when every accepted read can still be
read at the front of the buffer. -/
theorem seen_eq_recorded_iff : seen (repl b rs) = recorded (start b) rs ↔
    Readable kept (rs.map Read.bytes) (overlays b.bytes (rs.map Read.bytes)) := by
  rw [seen_repl, recorded_eq, map_take_eq_self, Readable, filter_kept]

/-- The history is faithful exactly when no accepted read is followed by a read that
departs from it. -/
theorem faithful_iff (b : Buf) (rs : List Read) : Faithful b rs ↔ rs.Pairwise Undisturbed := by
  have hk := readable_iff kept b.bytes (rs.map Read.bytes)
  rw [List.pairwise_map] at hk
  have hs (r later : Read) : Survives kept r.bytes later.bytes ↔ Undisturbed r later := by
    simp [Survives, Undisturbed, kept, Accepted]
  rw [← List.Pairwise.iff (fun {r later} => hs r later), ← hk]
  apply forall_congr'
  intro k
  rw [← List.map_take]
  exact seen_eq_recorded_iff

/-- Two lines of one length: the second shows through the entry of the first. -/
theorem second_line_shows_through :
    ¬ Faithful ⟨List.replicate 512 0xAA, List.length_replicate⟩
      [⟨lit "ab\n", by decide⟩, ⟨lit "cd\n", by decide⟩] := by
  rw [faithful_iff]
  decide

end Idula.Cli.ReplHistory
