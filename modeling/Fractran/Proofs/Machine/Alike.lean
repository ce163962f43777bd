/-
  What a machine notes and what it prints change nothing else.

  Machines for one program with one bound are alike, whether they note their steps or not. Alike
  machines take the same steps (`Alike.step`), and so their runs end in the same way, whatever is
  printed for each value (`Alike.drive`, `Alike.runFrom`).
-/
import Fractran.Proofs.Machine.Run

namespace Fractran.Machine

/-- Two machines for one program with one bound. -/
structure Alike (m m' : Machine) : Prop where
  program : m.program = m'.program
  bound : m.bound = m'.bound

theorem Alike.refl (m : Machine) : m.Alike m := ⟨rfl, rfl⟩

theorem alike_of_make {p : Program} {b : Int} {level level' : Level} {m m' : Machine}
    (h : make p b level = .ok m) (h' : make p b level' = .ok m') : m.Alike m' := by
  obtain ⟨-, -, rfl⟩ := make_eq_ok_iff.1 h
  obtain ⟨-, -, rfl⟩ := make_eq_ok_iff.1 h'
  exact ⟨rfl, rfl⟩

/-- Whether a machine can be made does not depend on the level, nor does the fault if it cannot. -/
theorem make_level (p : Program) (b : Int) (level level' : Level) :
    make p b level' = (make p b level).map fun m => ⟨m.program, m.bound, level' == .debug⟩ := by
  unfold make
  split
  · rfl
  · split <;> rfl

namespace Alike

variable {m m' : Machine}

/-- Alike machines yield the same in every step and go on from the same run. -/
theorem step (h : m.Alike m') (r : Run) :
    (m.step r).outcome = (m'.step r).outcome ∧ (m.step r).run = (m'.step r).run := by
  unfold Machine.step
  rw [h.program, h.bound]
  cases m'.program.next? r.value with
  | some a => split_ifs <;> exact ⟨rfl, rfl⟩
  | none => split_ifs <;> exact ⟨rfl, rfl⟩

theorem line (h : m.Alike m') (mode : Mode) (r : Run) (v : Integer) :
    m.line mode r v = m'.line mode r v := by
  unfold Machine.line
  rw [h.program]

/-- Alike machines end their runs in the same way, and print the same if they print in the same
    mode. -/
theorem drive (h : m.Alike m') (mode mode' : Mode) (limit : Nat) {t t' : Transcript}
    (ht : t.run = t'.run) :
    (m.drive mode limit t).1 = (m'.drive mode' limit t').1 ∧
      (m.drive mode limit t).2.run = (m'.drive mode' limit t').2.run ∧
      (mode = mode' → t.lines = t'.lines →
        (m.drive mode limit t).2.lines = (m'.drive mode' limit t').2.lines) := by
  induction limit generalizing t t' with
  | zero => exact ⟨rfl, ht, fun _ hlines => hlines⟩
  | succ limit ih =>
    obtain ⟨houtcome, hrun⟩ := h.step t.run
    rw [Machine.drive, Machine.drive, ← ht]
    generalize m.step t.run = s at houtcome hrun
    generalize m'.step t.run = s' at houtcome hrun
    obtain ⟨outcome, r, notes⟩ := s
    obtain ⟨outcome', r', notes'⟩ := s'
    obtain rfl : outcome = outcome' := houtcome
    obtain rfl : r = r' := hrun
    cases outcome with
    | ended status => exact ⟨rfl, rfl, fun _ hlines => hlines⟩
    | produced v =>
      obtain ⟨hstatus, hend, hprinted⟩ := @ih
        ⟨r, t.lines.push (m.line mode r v), t.notes ++ notes⟩
        ⟨r, t'.lines.push (m'.line mode' r v), t'.notes ++ notes'⟩ rfl
      refine ⟨hstatus, hend, ?_⟩
      intro hmode hlines
      apply hprinted hmode
      simp only
      rw [hmode, hlines, h.line]

/-- Runs from one seed on alike machines, in any two modes. -/
theorem runFrom (h : m.Alike m') (mode mode' : Mode) {seed : Integer} (hpos : 0 < seed.toInt) :
    ∃ status t t', m.runFrom mode seed = .ok (status, t) ∧
      m'.runFrom mode' seed = .ok (status, t') ∧ t.run = t'.run ∧
      (mode = mode' → t.lines = t'.lines) := by
  have hstart : (Transcript.mk { value := .ofInteger seed } #[] #[]).run =
      (Transcript.mk { value := .ofInteger seed } #[] #[]).run := rfl
  obtain ⟨hstatus, hrun, hlines⟩ := h.drive mode mode' m.bound hstart
  rw [m.runFrom_eq_drive mode hpos, m'.runFrom_eq_drive mode' hpos, ← h.bound]
  refine ⟨_, _, _, rfl, ?_, hrun, fun hmode => hlines hmode rfl⟩
  rw [hstatus]

end Alike

end Fractran.Machine
