/-
  What a session remembers of earlier calls.

  A call that sets a seed looks at nothing but the machine (`call_of_seed`), so from there on a
  session answers like a fresh one, whatever was asked of it before. A call that fails leaves the
  session as it was (`call_of_failed`), so calls that fail can be left out (`replies_succeeding`).
  Which calls fail is a matter of the seeds alone (`run_after_eq_none_iff`, `failed_iff`).
-/
import Fractran.Proofs.Machine.Alike
import Fractran.Proofs.Machine.Session

namespace Fractran.Session

/-! ## Sequences of calls -/

/-- The session after calls, one after the other. -/
def after (s : Session) (cs : List Call) : Session := cs.foldl (fun s c => (s.call c).session) s

/-- The replies to calls, one after the other. -/
def replies (s : Session) : List Call → List Reply
  | [] => []
  | c :: cs => s.call c :: (s.call c).session.replies cs

theorem replies_getElem? (s : Session) (cs : List Call) (i : Nat) :
    (s.replies cs)[i]? = cs[i]?.map fun c => (s.after (cs.take i)).call c := by
  induction cs generalizing s i with
  | nil => rfl
  | cons c cs ih =>
    cases i with
    | zero => rfl
    | succ i =>
      rw [replies, List.getElem?_cons_succ, List.getElem?_cons_succ, ih]
      rfl

/-- What is seen of a reply: the answer, and what the session shows of its run. -/
structure View where
  answer : Except Error Answer
  value : Fraction
  steps : Nat
  last : Option Nat
  halted : Bool

namespace Reply

def view (reply : Reply) : View :=
  ⟨reply.answer, reply.session.value, reply.session.steps, reply.session.last, reply.session.halted⟩

/-- Whether the call did what was asked. -/
def succeeded (reply : Reply) : Bool := reply.answer.isOk

/-- The lines that were printed. -/
def output (reply : Reply) : List String :=
  match reply.answer with
  | .ok (.finished _ lines) => lines
  | _ => []

theorem succeeded_eq_false_iff (reply : Reply) :
    reply.succeeded = false ↔ ∃ e, reply.answer = .error e := by
  unfold succeeded
  cases reply.answer with
  | ok answer => simp [Except.isOk, Except.toBool]
  | error e => simp [Except.isOk, Except.toBool]

end Reply

/-! ## Sessions with the same run -/

/-- The machines are alike and the runs are the same. -/
structure Alike (s s' : Session) : Prop where
  machine : s.machine.Alike s'.machine
  run : s.run = s'.run

/-- Alike sessions show the same. -/
theorem Alike.view {s s' : Session} (h : s.Alike s') {answer answer' : Except Error Answer}
    (ha : answer = answer') (notes notes' : List String) :
    (Reply.mk answer s notes).view = (Reply.mk answer' s' notes').view := by
  simp only [Reply.view, value, steps, last, halted, h.run, ha]

/-- A call that sets a seed gives the same view on alike machines, whatever was run before. -/
theorem call_of_seed {s s' : Session} (h : s.machine.Alike s'.machine) {c : Call} {n : Integer}
    (hc : c.seed? = some n) (hpos : 0 < n.toInt) :
    (s.call c).view = (s'.call c).view ∧ (s.call c).session.Alike (s'.call c).session := by
  cases c with
  | step => cases hc
  | reset seed =>
    obtain rfl := Option.some.inj hc
    have hstart := Machine.start_eq_ok_iff.2 ⟨hpos, rfl⟩
    simp only [call, hstart]
    have halike : Alike { s with run := some { value := .ofInteger seed } }
        { s' with run := some { value := .ofInteger seed } } := ⟨h, rfl⟩
    exact ⟨halike.view rfl _ _, halike⟩
  | run mode seed =>
    obtain rfl := Option.some.inj hc
    obtain ⟨status, t, t', ht, ht', hrun, hlines⟩ := h.runFrom mode mode hpos
    simp only [call, ht, ht']
    have halike : Alike { s with run := some t.run } { s' with run := some t'.run } :=
      ⟨h, congrArg some hrun⟩
    exact ⟨halike.view (by rw [hlines rfl]) _ _, halike⟩

/-- On one and the same machine the whole reply is the same. -/
theorem call_eq_of_seed {s s' : Session} (h : s.machine = s'.machine) {c : Call} {n : Integer}
    (hc : c.seed? = some n) (hpos : 0 < n.toInt) : s.call c = s'.call c := by
  cases c with
  | step => cases hc
  | reset seed =>
    obtain rfl := Option.some.inj hc
    simp only [call, Machine.start_eq_ok_iff.2 ⟨hpos, rfl⟩, h]
  | run mode seed =>
    obtain rfl := Option.some.inj hc
    simp only [call, s'.machine.runFrom_eq_drive mode hpos, h]

/-- A seed that is not positive is refused, and nothing changes. -/
theorem call_refused (s : Session) {c : Call} {n : Integer} (hc : c.seed? = some n)
    (hle : n.toInt ≤ 0) : s.call c = ⟨.error (.seedNotPositive n), s, []⟩ := by
  cases c with
  | step => cases hc
  | reset seed =>
    obtain rfl := Option.some.inj hc
    simp only [call, Machine.start_eq_error hle]
  | run mode seed =>
    obtain rfl := Option.some.inj hc
    have hrun : s.machine.runFrom mode seed = .error (.seedNotPositive seed) := by
      rw [Machine.runFrom, Machine.start_eq_error hle]
      rfl
    simp only [call, hrun]

namespace Alike

variable {s s' : Session}

theorem call_seed (h : s.Alike s') {c : Call} {n : Integer} (hc : c.seed? = some n) :
    (s.call c).view = (s'.call c).view ∧ (s.call c).session.Alike (s'.call c).session := by
  rcases Int.lt_or_le 0 n.toInt with hpos | hle
  · exact call_of_seed h.machine hc hpos
  · rw [s.call_refused hc hle, s'.call_refused hc hle]
    exact ⟨h.view rfl _ _, h⟩

/-- Any call keeps sessions alike and gives the same view of them. -/
theorem call (h : s.Alike s') (c : Call) :
    (s.call c).view = (s'.call c).view ∧ (s.call c).session.Alike (s'.call c).session := by
  cases c with
  | reset seed => exact h.call_seed rfl
  | run mode seed => exact h.call_seed rfl
  | step =>
    simp only [Session.call, h.run]
    cases s'.run with
    | none => exact ⟨h.view rfl _ _, h⟩
    | some r =>
      obtain ⟨houtcome, hrun⟩ := h.machine.step r
      have halike : Alike { s with run := some (s.machine.step r).run }
          { s' with run := some (s'.machine.step r).run } := ⟨h.machine, congrArg some hrun⟩
      exact ⟨halike.view (by rw [houtcome]) _ _, halike⟩

theorem replies (h : s.Alike s') (cs : List Call) :
    (s.replies cs).map Reply.view = (s'.replies cs).map Reply.view := by
  induction cs generalizing s s' with
  | nil => rfl
  | cons c cs ih =>
    obtain ⟨hview, halike⟩ := h.call c
    rw [Session.replies, Session.replies, List.map_cons, List.map_cons, hview, ih halike]

end Alike

/-! ## Calls that fail -/

/-- A call that fails changes nothing and notes nothing. -/
theorem call_of_failed {s : Session} {c : Call} (h : (s.call c).succeeded = false) :
    ∃ e, s.call c = ⟨.error e, s, []⟩ := by
  obtain ⟨e, he⟩ := (Reply.succeeded_eq_false_iff _).1 h
  cases hreply : s.call c with
  | mk answer s' notes =>
    have hp := hreply ▸ s.performs_call c
    rw [hreply] at he
    cases hp with
    | unready => exact ⟨_, rfl⟩
    | refused => exact ⟨_, rfl⟩
    | step => cases he
    | reset => cases he
    | run => cases he

/-- A call fails if it asks for a seed that is not positive, or for a step where there is no
    run. -/
theorem failed_iff (s : Session) (c : Call) :
    (s.call c).succeeded = false ↔
      (∃ n, c.seed? = some n ∧ n.toInt ≤ 0) ∨ c = .step ∧ s.run = none := by
  cases hreply : s.call c with
  | mk answer s' notes =>
    have hp := hreply ▸ s.performs_call c
    cases hp with
    | unready h => simp [Reply.succeeded, Except.isOk, Except.toBool, h]
    | refused hc h => simp [Reply.succeeded, Except.isOk, Except.toBool, hc, h]
    | step h => simp [Reply.succeeded, Except.isOk, Except.toBool, Call.seed?, h]
    | reset h => simp [Reply.succeeded, Except.isOk, Except.toBool, Call.seed?, h]
    | run h => simp [Reply.succeeded, Except.isOk, Except.toBool, Call.seed?, h]

theorem machine_call (s : Session) (c : Call) : (s.call c).session.machine = s.machine := by
  cases hreply : s.call c with
  | mk answer s' notes =>
    have hp := hreply ▸ s.performs_call c
    cases hp <;> rfl

theorem machine_after (s : Session) (cs : List Call) : (s.after cs).machine = s.machine := by
  induction cs generalizing s with
  | nil => rfl
  | cons c cs ih => exact (ih _).trans (s.machine_call c)

/-- The seed, if the call asks for one, is not positive. -/
def Call.SetsNone (c : Call) : Prop := ∀ n, c.seed? = some n → n.toInt ≤ 0

theorem run_call_eq_none_iff (s : Session) (c : Call) :
    (s.call c).session.run = none ↔ s.run = none ∧ c.SetsNone := by
  cases hreply : s.call c with
  | mk answer s' notes =>
    have hp := hreply ▸ s.performs_call c
    cases hp with
    | unready h => simp [h, Call.SetsNone, Call.seed?]
    | refused hc h => simp [hc, h, Call.SetsNone]
    | step h => simp [h]
    | reset h => simp [h, Call.SetsNone, Call.seed?]
    | run h => simp [h, Call.SetsNone, Call.seed?]

/-- There is a run as soon as a seed was set. -/
theorem run_after_eq_none_iff (s : Session) (cs : List Call) :
    (s.after cs).run = none ↔ s.run = none ∧ ∀ c ∈ cs, c.SetsNone := by
  induction cs generalizing s with
  | nil => simp [after]
  | cons c cs ih =>
    rw [after, List.foldl_cons, ← after, ih, run_call_eq_none_iff, List.forall_mem_cons, and_assoc]

/-- The calls that succeed when they are made one after the other. -/
def succeeding (s : Session) : List Call → List Call
  | [] => []
  | c :: cs =>
    if (s.call c).succeeded then c :: (s.call c).session.succeeding cs
    else (s.call c).session.succeeding cs

/-- The calls that succeed get the same replies on their own, and lead to the same session. -/
theorem replies_succeeding (s : Session) (cs : List Call) :
    s.replies (s.succeeding cs) = (s.replies cs).filter Reply.succeeded ∧
      s.after (s.succeeding cs) = s.after cs := by
  induction cs generalizing s with
  | nil => exact ⟨rfl, rfl⟩
  | cons c cs ih =>
    obtain ⟨hreplies, hafter⟩ := ih (s.call c).session
    rw [replies, succeeding]
    cases hok : (s.call c).succeeded with
    | true =>
      rw [if_pos rfl, List.filter_cons_of_pos hok, replies, hreplies]
      exact ⟨rfl, hafter⟩
    | false =>
      -- The session is as it was, so the rest of the calls finds what it would have found.
      obtain ⟨e, he⟩ := call_of_failed hok
      have hsession : (s.call c).session = s := congrArg Reply.session he
      rw [if_neg Bool.false_ne_true, List.filter_cons_of_neg (by simp [hok])]
      rw [hsession] at hreplies hafter ⊢
      refine ⟨hreplies, hafter.trans ?_⟩
      rw [after, after, List.foldl_cons, hsession]

/-- A call fails after others: it asks for a seed that is not positive, or for a step before any
    seed was set. -/
def Call.FailsAfter (before : List Call) (c : Call) : Prop :=
  (∃ n, c.seed? = some n ∧ n.toInt ≤ 0) ∨ c = .step ∧ ∀ d ∈ before, d.SetsNone

theorem failed_after_iff {m : Machine} (before : List Call) (c : Call) :
    (((ofMachine m).after before).call c).succeeded = false ↔ c.FailsAfter before := by
  rw [failed_iff, run_after_eq_none_iff, Call.FailsAfter]
  simp [ofMachine]

/-- After any calls, from a call on that sets a seed, a session shows the same as a fresh one for
    the same program and bound, and replies the same if the machine is the same. Of any calls
    those that succeed get the same replies without the others and lead to the same session; the
    others are those that ask for a seed that is not positive or for a step before any seed was
    set, and they change, print and note nothing. -/
theorem replies_forget_history {p : Program} {b : Int} {level level' : Level} {m m' : Machine}
    (hm : Machine.make p b level = .ok m) (hm' : Machine.make p b level' = .ok m') :
    (∀ (history : List Call) (c : Call) (n : Integer) (rest : List Call),
      c.seed? = some n → 0 < n.toInt →
      (((ofMachine m).after history).replies (c :: rest)).map Reply.view =
        ((ofMachine m').replies (c :: rest)).map Reply.view ∧
      ((ofMachine m).after history).replies (c :: rest) = (ofMachine m).replies (c :: rest)) ∧
    ∀ cs : List Call,
      (ofMachine m).replies ((ofMachine m).succeeding cs) =
        ((ofMachine m).replies cs).filter Reply.succeeded ∧
      (ofMachine m).after ((ofMachine m).succeeding cs) = (ofMachine m).after cs ∧
      ∀ (i : Nat) (c : Call) (reply : Reply), cs[i]? = some c →
        ((ofMachine m).replies cs)[i]? = some reply →
        (reply.succeeded = false ↔ c.FailsAfter (cs.take i)) ∧
        (reply.succeeded = false → reply.session = (ofMachine m).after (cs.take i) ∧
          reply.output = [] ∧ reply.notes = []) := by
  constructor
  · intro history c n rest hc hpos
    have hmachine : ((ofMachine m).after history).machine = (ofMachine m).machine :=
      machine_after _ history
    constructor
    · have halike : ((ofMachine m).after history).machine.Alike (ofMachine m').machine := by
        rw [hmachine]
        exact Machine.alike_of_make hm hm'
      obtain ⟨hview, hsession⟩ := call_of_seed halike hc hpos
      rw [replies, replies, List.map_cons, List.map_cons, hview, hsession.replies]
    · rw [replies, replies, call_eq_of_seed hmachine hc hpos]
  · intro cs
    obtain ⟨hreplies, hafter⟩ := replies_succeeding (ofMachine m) cs
    refine ⟨hreplies, hafter, ?_⟩
    intro i c reply hc hreply
    rw [replies_getElem?, hc] at hreply
    obtain rfl : ((ofMachine m).after (cs.take i)).call c = reply := Option.some.inj hreply
    refine ⟨failed_after_iff _ c, ?_⟩
    intro hfailed
    obtain ⟨e, he⟩ := call_of_failed hfailed
    rw [he]
    exact ⟨rfl, rfl, rfl⟩

/-- A session for `3/2` that has halted and refused seed zero traces the run from `4` like a fresh
    one that notes its steps. A step too early and a refused seed can be left out. -/
theorem replies_forget_history_three_halves :
    ∃ m m', Machine.make ⟨[⟨.ofInt64 3, .ofInt64 2⟩]⟩ 5 .info = .ok m ∧
      Machine.make ⟨[⟨.ofInt64 3, .ofInt64 2⟩]⟩ 5 .debug = .ok m' ∧
      (((ofMachine m).after [.run .values (.ofInt64 2), .reset .zero, .step]).replies
        [.run .trace (.ofInt64 4), .step]).map Reply.view =
        ((ofMachine m').replies [.run .trace (.ofInt64 4), .step]).map Reply.view ∧
      (ofMachine m).replies [.reset (.ofInt64 4), .step] =
        ((ofMachine m).replies [.step, .reset (.ofInt64 4), .reset .zero, .step]).filter
          Reply.succeeded := by
  have hm := make_three_halves (b := 5) (by decide)
  have hm' : Machine.make ⟨[⟨.ofInt64 3, .ofInt64 2⟩]⟩ 5 .debug =
      .ok ⟨⟨[⟨.ofInt64 3, .ofInt64 2⟩]⟩, 5, true⟩ := by
    rw [Machine.make_level _ _ .info, hm]
    rfl
  obtain ⟨hforget, hatomic⟩ := replies_forget_history hm hm'
  refine ⟨_, _, hm, hm', (hforget _ _ _ _ rfl (by decide)).1, ?_⟩
  exact (hatomic [.step, .reset (.ofInt64 4), .reset .zero, .step]).1

end Fractran.Session
