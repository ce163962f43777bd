/-
  Reading programs by recursive descent.

  A parser looks at one character of a stream at a time and decides by its symbol. It is kept
  from one stream to the next: a failure leaves it as it stands, and opening a stream overwrites
  all but the symbol, which the first character overwrites.
-/
import Fractran.Source.Stream

namespace Fractran.Source

/-- The rest of the stream that is read, the character that the parser looks at with its symbol
    and position, and the character that it looked at before. -/
structure Parser where
  input : List Char := []
  broken : Bool := false
  symbol : Symbol := .finish
  current : Char := Char.ofNat 0
  last : Char := Char.ofNat 0
  position : Int := -1
  deriving DecidableEq

namespace Parser

/-- What the parser looks at; `none` is the end of the stream. -/
def found (p : Parser) : Option Char := if p.symbol = .finish then none else some p.current

/-- Looks at the next character. -/
def advance (p : Parser) : Except Error Unit × Parser :=
  match p.input with
  | [] =>
    if p.broken then
      (.error .unreadableSource, { p with last := p.current, position := p.position + 1 })
    else
      (.ok (), { p with
        symbol := .finish, current := Char.ofNat 0, last := p.current, position := p.position + 1 })
  | c :: rest =>
    (.ok (), { p with
      input := rest, symbol := .ofChar c, current := c, last := p.current,
      position := p.position + 1 })

/-- How much of the stream is left, with the character that the parser looks at. -/
def unread (p : Parser) : Nat := p.input.length + if p.symbol = .finish then 0 else 1

theorem unread_advance_of_ok {p q : Parser} (h : p.advance = (.ok (), q)) :
    q.unread ≤ p.input.length := by
  unfold advance at h
  split at h
  next hp =>
    split at h
    · cases h
    · cases h
      simp [unread, hp]
  next c rest hp =>
    cases h
    rw [hp, List.length_cons]
    exact Nat.add_le_add_left (by split <;> decide) _

theorem unread_advance (p : Parser) : p.advance.2.unread ≤ p.unread := by
  cases h : p.advance with
  | mk result q =>
    cases result with
    | ok _ => exact Nat.le_trans (unread_advance_of_ok h) (Nat.le_add_right _ _)
    | error e =>
      unfold advance at h
      split at h
      · split at h <;> cases h
        exact Nat.le_refl _
      · cases h

end Parser

/-- A part of the reading. It can fail, and what it has changed by then stays changed; it gives
    no character back. -/
structure Parsing (α : Type) where
  run : Parser → Except Error α × Parser
  nonGrowing : ∀ p, (run p).2.unread ≤ p.unread

namespace Parsing

theorem unread_le {α : Type} {m : Parsing α} {p q : Parser} {x : Except Error α}
    (h : m.run p = (x, q)) : q.unread ≤ p.unread := by
  have hle := m.nonGrowing p
  rwa [h] at hle

/-- One part after another; the second depends on what the first gives. -/
def bind {α β : Type} (m : Parsing α) (f : α → Parsing β) : Parsing β where
  run p :=
    match m.run p with
    | (.ok a, q) => (f a).run q
    | (.error e, q) => (.error e, q)
  nonGrowing p := by
    split
    next a q h => exact Nat.le_trans ((f a).nonGrowing q) (unread_le h)
    next e q h => exact unread_le h

instance : Monad Parsing where
  pure a := ⟨fun p => (.ok a, p), fun _ => Nat.le_refl _⟩
  bind := bind

/-- Something that the parser holds. -/
def view {α : Type} (f : Parser → α) : Parsing α :=
  ⟨fun p => (.ok (f p), p), fun _ => Nat.le_refl _⟩

/-- A result that does not depend on the parser. -/
def ofExcept {α : Type} (x : Except Error α) : Parsing α :=
  ⟨fun p => (x, p), fun _ => Nat.le_refl _⟩

/-- Looks at the next character. -/
def next : Parsing Unit := ⟨Parser.advance, Parser.unread_advance⟩

/-- Fails unless the parser looks at the symbol. -/
def expect (s : Symbol) : Parsing Unit := do
  let p ← view id
  if p.symbol = s then return ()
  else ofExcept (.error (.malformedSource (.unexpected p.position.toNat p.found s)))

/-- Moves past the symbol, if the parser looks at it. -/
def accept (s : Symbol) : Parsing Bool := do
  if (← view Parser.symbol) = s then
    next
    return true
  else return false

/-! ## Repetition -/

theorem run_accept (s : Symbol) (p : Parser) :
    (accept s).run p =
      if p.symbol = s then (p.advance.1.map fun _ => true, p.advance.2) else (.ok false, p) := by
  show (bind (view Parser.symbol) fun t => if t = s then _ else _).run p = _
  simp only [bind, view]
  split
  · show (bind next fun _ => pure true).run p = _
    simp only [bind, next]
    rcases p.advance with ⟨_ | _, q⟩ <;> rfl
  · rfl

/-- A symbol that is moved past is gone. -/
theorem unread_accept {s : Symbol} (hs : s ≠ .finish) {p q : Parser}
    (h : (accept s).run p = (.ok true, q)) : q.unread < p.unread := by
  rw [run_accept] at h
  split at h
  next hp =>
    rcases hadvance : p.advance with ⟨_ | _, r⟩
    · rw [hadvance] at h
      cases h
    · rw [hadvance] at h
      cases h
      have hle := Parser.unread_advance_of_ok hadvance
      rw [Parser.unread.eq_def p, hp, if_neg hs]
      exact Nat.lt_succ_of_le hle
  next => cases h

/-- Runs the body behind each of a row of symbols. -/
def runAfterEach {α : Type} (s : Symbol) (hs : s ≠ .finish) (body : α → Parsing α) (a : α)
    (p : Parser) : Except Error α × Parser :=
  match haccept : (accept s).run p with
  | (.error e, q) => (.error e, q)
  | (.ok false, q) => (.ok a, q)
  | (.ok true, q) =>
    match hbody : (body a).run q with
    | (.error e, r) => (.error e, r)
    | (.ok b, r) =>
      have : r.unread < p.unread :=
        Nat.lt_of_le_of_lt (unread_le hbody) (unread_accept hs haccept)
      runAfterEach s hs body b r
termination_by p.unread

theorem unread_runAfterEach {α : Type} (s : Symbol) (hs : s ≠ .finish) (body : α → Parsing α)
    (a : α) (p : Parser) : (runAfterEach s hs body a p).2.unread ≤ p.unread := by
  fun_induction runAfterEach s hs body a p with
  | case1 a p e q haccept => exact unread_le haccept
  | case2 a p q haccept => exact unread_le haccept
  | case3 a p q haccept e r hbody => exact Nat.le_trans (unread_le hbody) (unread_le haccept)
  | case4 a p q haccept b r hbody hlt ih => exact Nat.le_trans ih (Nat.le_of_lt hlt)

/-- Runs the body behind each of a row of symbols. -/
def afterEach {α : Type} (s : Symbol) (hs : s ≠ .finish) (body : α → Parsing α) (a : α) :
    Parsing α :=
  ⟨runAfterEach s hs body a, unread_runAfterEach s hs body a⟩

/-! ## Programs -/

/-- Reads the digits of an integer. -/
def readInteger : Parsing Integer := do
  expect .digit
  let digits ← afterEach .digit (by decide) (fun digits => view fun p => p.last :: digits) []
  ofExcept (Integer.read (.ofList digits.reverse))

/-- Reads the denominator of a fraction and puts the fraction behind those of the program. -/
def readDenominator (program : Program) (num : Integer) : Parsing Program := do
  let start ← view Parser.position
  let den ← readInteger
  if den.isZero then ofExcept (.error (.malformedSource (.zeroDenominator start.toNat)))
  else ofExcept (program.push num den)

/-- Reads a fraction and puts it behind those of the program. -/
def readFraction (program : Program) : Parsing Program := do
  let num ← readInteger
  expect .slash
  next
  readDenominator program num

/-- Reads what is behind a fraction: more of them, each behind a comma, and the end. -/
def readRest (program : Program) : Parsing Program := do
  let program ← afterEach .comma (by decide) readFraction program
  expect .finish
  return program

/-- Reads a program from its first character to the end of the stream. -/
def readProgram : Parsing Program := do
  next
  if (← view Parser.symbol) = .finish then ofExcept (.error (.malformedSource .empty))
  else
    let first ← readFraction ⟨[]⟩
    readRest first

end Parsing

namespace Parser

/-- The parser with a stream before it. -/
def opened (p : Parser) (s : Stream) : Parser :=
  { p with
    input := s.text.toList, broken := s.broken, current := Char.ofNat 0, last := Char.ofNat 0,
    position := -1 }

/-- Reads a stream: what it gives, and the parser as it is left. -/
def parse (p : Parser) (s : Stream) : Except Error Program × Parser :=
  Parsing.readProgram.run (p.opened s)

/-- The parser after it has read streams, one after the other. -/
def after (history : List Stream) : Parser := history.foldl (fun p s => (p.parse s).2) {}

end Parser

end Fractran.Source
