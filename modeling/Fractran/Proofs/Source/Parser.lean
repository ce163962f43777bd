/-
  The parser against the reader.

  The parser decides by the character that it looks at, the reader by the one that it takes, so
  the reader is always one character behind. `Looks` says where in the text the parser is and
  `readOn` what the reader makes of the rest from there. Each part of the parser takes a part of
  the text or fails as the reader does (`takes_integer`, `run_readInteger_refused`), and what is
  behind a comma is read by the same argument on a shorter text (`readRest_eq`, `agrees`). So the
  parser gives what the reader gives, whatever it was left with (`Parser.parse_eq`), and takes
  exactly the sources of the grammar.
-/
import Fractran.Proofs.Integer.Reading
import Fractran.Proofs.Source.Grammar
import Fractran.Source.Parser

namespace Fractran.Source

/-! ## The reader from any point on -/

namespace Reader

/-- The reader refuses what comes next; `none` is the end of the text. -/
def Refuses (r : Reader) (fault : Fault) : Option Char → Prop
  | none => r.finish = .error fault
  | some c => r.take c = .error fault

/-- What the reader makes of the rest of a stream. -/
def readOn (broken : Bool) (r : Reader) (rest : List Char) : Except Error Program :=
  match rest.foldlM take r with
  | .error fault => .error (.malformedSource fault)
  | .ok r' =>
    if broken then .error .unreadableSource
    else match r'.finish with
      | .error fault => .error (.malformedSource fault)
      | .ok p => .ok p

theorem readOn_append {r r' : Reader} {text : List Char} (h : text.foldlM take r = .ok r')
    (broken : Bool) (rest : List Char) :
    readOn broken r (text ++ rest) = readOn broken r' rest := by
  rw [readOn, foldlM_append_ok h, readOn]

theorem readOn_cons {r r' : Reader} {c : Char} (h : r.take c = .ok r') (broken : Bool)
    (rest : List Char) : readOn broken r (c :: rest) = readOn broken r' rest := by
  rw [readOn, foldlM_cons_ok h, readOn]

theorem readOn_refuses {broken : Bool} {r : Reader} {rest : List Char} {fault : Fault}
    (hend : rest = [] → broken = false) (h : r.Refuses fault rest.head?) :
    readOn broken r rest = .error (.malformedSource fault) := by
  cases rest with
  | nil =>
    have hfinish : r.finish = .error fault := h
    simp only [readOn, List.foldlM_nil, pure, Except.pure, hend rfl, hfinish]
    rfl
  | cons c rest =>
    have htake : r.take c = .error fault := h
    simp only [readOn, List.foldlM_cons, htake, bind, Except.bind]

end Reader

/-! ## What the reader refuses -/

/-- The symbol of what comes next. -/
def symbolOf : Option Char → Symbol
  | none => .finish
  | some c => .ofChar c

namespace Reader

variable {fs : List Fraction} {k start : Nat} {n d : List Char} {next : Option Char} {fault : Fault}

theorem refuses_fraction (hfs : next = none → fs ≠ []) (h : symbolOf next ≠ .digit) :
    Refuses ⟨fs, k, .fraction⟩ (.unexpected k next .digit) next := by
  cases next with
  | none => simp [Refuses, finish, hfs rfl]
  | some c =>
    simp only [Refuses, take]
    split <;> simp_all [symbolOf]

theorem refuses_numerator (hdigit : symbolOf next ≠ .digit) (hslash : symbolOf next ≠ .slash) :
    Refuses ⟨fs, k, .numerator n⟩ (.unexpected k next .slash) next := by
  cases next with
  | none => rfl
  | some c =>
    simp only [Refuses, take]
    split <;> simp_all [symbolOf]

theorem refuses_slash (h : symbolOf next ≠ .digit) :
    Refuses ⟨fs, k, .slash n⟩ (.unexpected k next .digit) next := by
  cases next with
  | none => rfl
  | some c =>
    simp only [Refuses, take]
    split <;> simp_all [symbolOf]

theorem refuses_denominator (hclose : close n start d = .error fault) (h : symbolOf next ≠ .digit) :
    Refuses ⟨fs, k, .denominator n start d⟩ fault next := by
  cases next with
  | none =>
    simp only [Refuses, finish, hclose]
    rfl
  | some c =>
    simp only [Refuses, take]
    split <;> simp_all [symbolOf, bind, Except.bind]

theorem refuses_finish {f : Fraction} (hclose : close n start d = .ok f) {c : Char}
    (hdigit : Symbol.ofChar c ≠ .digit) (hcomma : Symbol.ofChar c ≠ .comma) :
    Refuses ⟨fs, k, .denominator n start d⟩ (.unexpected k (some c) .finish) (some c) := by
  simp only [Refuses, take, hclose]
  rfl

end Reader

theorem Stream.parse_eq_readOn (s : Stream) :
    s.parse = Reader.readOn s.broken {} s.text.toList := rfl

/-! ## Where the parser is -/

/-- The parser looks at the rest of the text behind a number of characters. It has seen the end
    of a stream only if the stream has one. -/
inductive Looks (broken : Bool) : Nat → List Char → Parser → Prop where
  | char (k : Nat) (c : Char) (rest : List Char) (last : Char) :
      Looks broken k (c :: rest) ⟨rest, broken, .ofChar c, c, last, k⟩
  | finish (k : Nat) (current last : Char) (h : broken = false) :
      Looks broken k [] ⟨[], broken, .finish, current, last, k⟩

/-- A part of the reading has taken the text up to the rest: it has its result and looks at the
    rest, unless the stream breaks off there. -/
inductive Takes {α : Type} (broken : Bool) (k : Nat) (rest : List Char) (a : α) :
    Except Error α × Parser → Prop where
  | looks {p : Parser} (h : Looks broken k rest p) : Takes broken k rest a (.ok a, p)
  | breaks {p : Parser} (hrest : rest = []) (hbroken : broken = true) :
      Takes broken k rest a (.error .unreadableSource, p)

theorem ofChar_ne_finish (c : Char) : Symbol.ofChar c ≠ .finish := by
  unfold Symbol.ofChar
  split_ifs <;> simp

namespace Looks

variable {broken : Bool} {k : Nat} {rest : List Char} {p : Parser}

theorem symbol_eq (h : Looks broken k rest p) : p.symbol = symbolOf rest.head? := by
  cases h <;> rfl

theorem position_eq (h : Looks broken k rest p) : p.position = k := by
  cases h <;> rfl

theorem found_eq (h : Looks broken k rest p) : p.found = rest.head? := by
  cases h with
  | char c rest last => exact if_neg (ofChar_ne_finish c)
  | finish current last h => rfl

theorem broken_eq_false (h : Looks broken k rest p) (hrest : rest = []) : broken = false := by
  cases h with
  | char c rest last => cases hrest
  | finish current last h => exact h

end Looks

/-! ## One part after another -/

namespace Parsing

variable {α β γ : Type}

theorem run_bind_ok {m : Parsing α} {p q : Parser} {a : α} (h : m.run p = (.ok a, q))
    (f : α → Parsing β) : (m >>= f).run p = (f a).run q := by
  show (bind m f).run p = _
  simp only [bind, h]

theorem run_bind_error {m : Parsing α} {p q : Parser} {e : Error} (h : m.run p = (.error e, q))
    (f : α → Parsing β) : (m >>= f).run p = (.error e, q) := by
  show (bind m f).run p = _
  simp only [bind, h]

theorem run_bind_bind (m : Parsing α) (f : α → Parsing β) (g : β → Parsing γ) (p : Parser) :
    ((m >>= f) >>= g).run p = (m >>= fun a => f a >>= g).run p := by
  rcases h : m.run p with ⟨e | a, q⟩
  · rw [run_bind_error (run_bind_error h f), run_bind_error h]
  · rw [run_bind_ok h]
    rcases hf : (f a).run q with ⟨e | b, r⟩
    · rw [run_bind_error hf, run_bind_error ((run_bind_ok h f).trans hf)]
    · rw [run_bind_ok hf, run_bind_ok ((run_bind_ok h f).trans hf)]

theorem run_bind_congr {m m' : Parsing α} {p : Parser} (h : m.run p = m'.run p)
    (f : α → Parsing β) : (m >>= f).run p = (m' >>= f).run p := by
  show (bind m f).run p = (bind m' f).run p
  simp only [bind, h]

theorem run_expect (s : Symbol) (p : Parser) :
    (expect s).run p =
      if p.symbol = s then (.ok (), p)
      else (.error (.malformedSource (.unexpected p.position.toNat p.found s)), p) := by
  show ((view id >>= fun p => _ : Parsing Unit)).run p = _
  rw [run_bind_ok (show (view id).run p = (.ok p, p) from rfl)]
  split <;> rfl

/-- A row of symbols is empty, or it is one symbol with the body behind it and a row again. -/
theorem run_afterEach (s : Symbol) (hs : s ≠ .finish) (body : α → Parsing α) (a : α)
    (p : Parser) :
    (afterEach s hs body a).run p =
      (accept s >>= fun more => if more then body a >>= afterEach s hs body else pure a).run p := by
  show runAfterEach s hs body a p = _
  unfold runAfterEach
  split
  next haccept => rw [run_bind_error haccept]
  next haccept => rw [run_bind_ok haccept]; rfl
  next haccept =>
    rw [run_bind_ok haccept, if_pos rfl]
    split
    next hbody => rw [run_bind_error hbody]
    next hbody => rw [run_bind_ok hbody]; rfl

theorem run_afterEach_of_ne {s : Symbol} {hs : s ≠ .finish} {body : α → Parsing α} {a : α}
    {p : Parser} (h : p.symbol ≠ s) : (afterEach s hs body a).run p = (.ok a, p) := by
  have haccept : (accept s).run p = (.ok false, p) := by rw [run_accept, if_neg h]
  rw [run_afterEach, run_bind_ok haccept]
  rfl

theorem run_afterEach_of_eq {s : Symbol} {hs : s ≠ .finish} {body : α → Parsing α} {a : α}
    {p : Parser} (h : p.symbol = s) :
    (afterEach s hs body a).run p = (next >>= fun _ => body a >>= afterEach s hs body).run p := by
  have haccept := run_accept s p
  rw [if_pos h] at haccept
  rw [run_afterEach]
  rcases hnext : next.run p with ⟨e | _, q⟩
  · rw [show p.advance = (.error e, q) from hnext] at haccept
    rw [run_bind_error haccept, run_bind_error hnext]
  · rw [show p.advance = (.ok (), q) from hnext] at haccept
    rw [run_bind_ok haccept, run_bind_ok hnext, if_pos rfl]

end Parsing

/-! ## Parts that take a part of the text -/

open Parsing

section

variable {broken : Bool} {k : Nat} {c : Char} {ds rest : List Char} {p : Parser}

theorem Takes.bind {α β : Type} {j : Nat} {rest' : List Char} {a : α} {b : β} {m : Parsing α}
    {f : α → Parsing β} (h : Takes broken k rest a (m.run p)) (hrest : rest = [] → rest' = [])
    (hf : ∀ q, Looks broken k rest q → Takes broken j rest' b ((f a).run q)) :
    Takes broken j rest' b ((m >>= f).run p) := by
  generalize hm : m.run p = result at h
  cases h with
  | looks hlooks =>
    rw [run_bind_ok hm]
    exact hf _ hlooks
  | breaks hnil hbroken =>
    rw [run_bind_error hm]
    exact .breaks (hrest hnil) hbroken

/-- If what is behind a part gives what the reader makes of the rest, so does the whole: where
    the stream breaks off, both say so. -/
theorem Takes.answer {α : Type} {a : α} {m : Parsing α} {f : α → Parsing Program} {r : Reader}
    (h : Takes broken k rest a (m.run p))
    (hf : ∀ q, Looks broken k rest q → ((f a).run q).1 = r.readOn broken rest) :
    ((m >>= f).run p).1 = r.readOn broken rest := by
  generalize hm : m.run p = result at h
  cases h with
  | looks hlooks =>
    rw [run_bind_ok hm]
    exact hf _ hlooks
  | breaks hnil hbroken =>
    rw [run_bind_error hm, hnil, hbroken]
    rfl

theorem advance_cases (h : Looks broken k (c :: rest) p) :
    (∃ q, next.run p = (.ok (), q) ∧ Looks broken (k + 1) rest q ∧ q.last = c) ∨
      rest = [] ∧ broken = true ∧ ∃ q, next.run p = (.error .unreadableSource, q) := by
  cases h with
  | char =>
    cases rest with
    | nil =>
      cases broken with
      | false => exact .inl ⟨_, rfl, .finish (k + 1) _ _ rfl, rfl⟩
      | true => exact .inr ⟨rfl, rfl, _, rfl⟩
    | cons d rest => exact .inl ⟨_, rfl, .char (k + 1) d rest c, rfl⟩

theorem takes_next (h : Looks broken k (c :: rest) p) :
    Takes broken (k + 1) rest () (next.run p) := by
  rcases advance_cases h with ⟨q, hq, hlooks, -⟩ | ⟨hrest, hbroken, q, hq⟩
  · rw [hq]
    exact .looks hlooks
  · rw [hq]
    exact .breaks hrest hbroken

/-- A digit that is moved past is kept. -/
theorem takes_digit (h : Looks broken k (c :: rest) p) (digits : List Char) :
    Takes broken (k + 1) rest (c :: digits)
      ((next >>= fun _ => view fun p => p.last :: digits).run p) := by
  rcases advance_cases h with ⟨q, hq, hlooks, hlast⟩ | ⟨hrest, hbroken, q, hq⟩
  · rw [run_bind_ok hq, ← hlast]
    exact .looks hlooks
  · rw [run_bind_error hq]
    exact .breaks hrest hbroken

theorem takes_digits (h : Looks broken k (ds ++ rest) p) (hd : ∀ c ∈ ds, c.isDigit = true)
    (hrest : symbolOf rest.head? ≠ .digit) (digits : List Char) :
    Takes broken (k + ds.length) rest (ds.reverse ++ digits)
      ((afterEach .digit (by decide) (fun digits => view fun p => p.last :: digits) digits).run
        p) := by
  induction ds generalizing k p digits with
  | nil =>
    rw [run_afterEach_of_ne (h.symbol_eq ▸ hrest)]
    exact .looks h
  | cons c ds ih =>
    rw [List.forall_mem_cons] at hd
    have hsymbol : p.symbol = .digit := by
      rw [h.symbol_eq]
      exact (ofChar_eq_digit_iff c).2 hd.1
    rw [run_afterEach_of_eq hsymbol, ← run_bind_bind, List.length_cons, Nat.add_comm ds.length,
      ← Nat.add_assoc, List.reverse_cons, List.append_assoc]
    refine (takes_digit h digits).bind ?_ ?_
    · intro hnil
      exact (List.append_eq_nil_iff.1 hnil).2
    · intro q hq
      exact ih hq hd.2 (c :: digits)

theorem run_expect_met (h : Looks broken k rest p) {s : Symbol} (hs : symbolOf rest.head? = s) :
    (expect s).run p = (.ok (), p) := by
  rw [run_expect, if_pos (h.symbol_eq.trans hs)]

theorem run_expect_refused (h : Looks broken k rest p) {s : Symbol}
    (hs : symbolOf rest.head? ≠ s) :
    (expect s).run p = (.error (.malformedSource (.unexpected k rest.head? s)), p) := by
  rw [run_expect, if_neg (by rwa [h.symbol_eq]), h.position_eq, h.found_eq, Int.toNat_natCast]

/-! ## Integers -/

theorem read_ofList (h : IsNumeral ds) :
    Integer.read (.ofList ds) = .ok (Reader.integer ds.reverse) := by
  let numeral : Numeral := ⟨0, false, ds, 0, h.1, h.2⟩
  have htext : numeral.text = (String.ofList ds).toList := by
    rw [String.toList_ofList]
    exact List.append_nil ds
  rw [Integer.read_numeral htext, Reader.integer, List.reverse_reverse]
  rfl

theorem takes_integer (h : Looks broken k (ds ++ rest) p) (hd : IsNumeral ds)
    (hrest : symbolOf rest.head? ≠ .digit) :
    Takes broken (k + ds.length) rest (Reader.integer ds.reverse) (readInteger.run p) := by
  obtain ⟨c, cs, hcs⟩ := List.exists_cons_of_ne_nil hd.1
  have hsymbol : symbolOf (ds ++ rest).head? = .digit := by
    rw [hcs]
    exact (ofChar_eq_digit_iff c).2 (hd.2 c (by simp [hcs]))
  rw [readInteger, run_bind_ok (run_expect_met h hsymbol)]
  refine (takes_digits h hd.2 hrest []).bind id ?_
  intro q hq
  rw [List.append_nil, List.reverse_reverse, read_ofList hd]
  exact .looks hq

theorem run_readInteger_refused (h : Looks broken k rest p)
    (hrest : symbolOf rest.head? ≠ .digit) :
    readInteger.run p = (.error (.malformedSource (.unexpected k rest.head? .digit)), p) := by
  rw [readInteger, run_bind_error (run_expect_refused h hrest)]

end

/-! ## Programs -/

/-- From before a fraction on, the parser gives what the reader gives. -/
def Agrees (broken : Bool) (rest : List Char) : Prop :=
  ∀ (fs : List Fraction) (k : Nat) (p : Parser), (rest = [] → fs ≠ []) → Looks broken k rest p →
    ((readFraction ⟨fs.reverse⟩ >>= readRest).run p).1 =
      Reader.readOn broken ⟨fs, k, .fraction⟩ rest

section

variable {broken : Bool} {k start : Nat} {fs : List Fraction} {n d rest : List Char} {p : Parser}

/-- Where the parser fails and the reader refuses, they agree on the fault. -/
theorem agree_of_refuses {m : Parsing Program} {r : Reader} {fault : Fault}
    (h : Looks broken k rest p) (hm : (m.run p).1 = .error (.malformedSource fault))
    (hr : r.Refuses fault rest.head?) : (m.run p).1 = r.readOn broken rest := by
  rw [hm, Reader.readOn_refuses h.broken_eq_false hr]

/-- The end of the program, or a comma and a shorter text to read. -/
theorem readRest_eq {f : Fraction} (h : Looks broken k rest p)
    (hrest : symbolOf rest.head? ≠ .digit) (hclose : Reader.close n start d = .ok f)
    (ih : ∀ rest', rest'.length < rest.length → Agrees broken rest') :
    ((readRest ⟨(f :: fs).reverse⟩).run p).1 =
      Reader.readOn broken ⟨fs, k, .denominator n start d⟩ rest := by
  by_cases hcomma : symbolOf rest.head? = .comma
  · cases rest with
    | nil => cases hcomma
    | cons c rest =>
      obtain rfl := (ofChar_eq_comma_iff c).1 hcomma
      have htake : Reader.take ⟨fs, k, .denominator n start d⟩ ',' =
          .ok ⟨f :: fs, k + 1, .fraction⟩ := by
        change (Reader.close n start d >>= _) = _
        rw [hclose]
        rfl
      rw [Reader.readOn_cons htake, readRest,
        run_bind_congr (run_afterEach_of_eq (h.symbol_eq.trans hcomma)), run_bind_bind]
      refine (takes_next h).answer ?_
      intro q hq
      rw [run_bind_bind]
      exact ih rest (Nat.lt_succ_self _) (f :: fs) (k + 1) q (fun _ => List.cons_ne_nil _ _) hq
  · have hrow : (afterEach .comma (by decide) readFraction ⟨(f :: fs).reverse⟩).run p =
        (.ok ⟨(f :: fs).reverse⟩, p) := run_afterEach_of_ne (h.symbol_eq ▸ hcomma)
    rw [readRest, run_bind_ok hrow]
    cases rest with
    | nil =>
      have hfinish : Reader.finish ⟨fs, k, .denominator n start d⟩ =
          .ok ⟨(f :: fs).reverse⟩ := by
        simp only [Reader.finish, hclose]
        rfl
      have hmet : (expect .finish).run p = (.ok (), p) := run_expect_met h rfl
      rw [run_bind_ok hmet, h.broken_eq_false rfl]
      simp only [Reader.readOn, List.foldlM_nil, pure, Except.pure, hfinish]
      rfl
    | cons c rest =>
      refine agree_of_refuses h ?_ (Reader.refuses_finish hclose hrest hcomma)
      rw [run_bind_error (run_expect_refused h (ofChar_ne_finish c))]
      rfl

/-- Every text is a run of digits and something that does not go on with a digit. -/
theorem exists_digits (text : List Char) :
    ∃ ds rest, text = ds ++ rest ∧ (∀ c ∈ ds, c.isDigit = true) ∧
      symbolOf rest.head? ≠ .digit := by
  refine ⟨text.takeWhile Char.isDigit, text.dropWhile Char.isDigit,
    List.takeWhile_append_dropWhile.symm, ?_, ?_⟩
  · exact List.all_eq_true.1 List.all_takeWhile
  · cases h : (text.dropWhile Char.isDigit).head? with
    | none => simp [symbolOf]
    | some c =>
      intro hc
      have hnot := List.head?_dropWhile_not Char.isDigit text
      rw [h] at hnot
      simp [(ofChar_eq_digit_iff c).1 hc] at hnot

theorem readDenominator_eq (h : Looks broken k rest p)
    (ih : ∀ rest', rest'.length < rest.length → Agrees broken rest') :
    ((readDenominator ⟨fs.reverse⟩ (Reader.integer n) >>= readRest).run p).1 =
      Reader.readOn broken ⟨fs, k, .slash n⟩ rest := by
  have hstart : (view Parser.position).run p = (.ok (k : Int), p) := by rw [← h.position_eq]; rfl
  rw [readDenominator, run_bind_bind, run_bind_ok hstart, run_bind_bind, Int.toNat_natCast]
  obtain ⟨ds, tail, rfl, hds, htail⟩ := exists_digits rest
  by_cases hnil : ds = []
  · subst hnil
    refine agree_of_refuses h ?_ (Reader.refuses_slash htail)
    rw [run_bind_error (run_readInteger_refused h htail)]
  · have hnumeral : IsNumeral ds := ⟨hnil, hds⟩
    rw [Reader.readOn_append (foldlM_denominator fs k n hnumeral)]
    refine (takes_integer h hnumeral htail).answer ?_
    intro q hq
    cases hzero : (Reader.integer ds.reverse).isZero with
    | true =>
      have hclose : Reader.close n k ds.reverse = .error (.zeroDenominator k) := by
        rw [Reader.close, Fraction.make?, if_pos hzero]
      exact agree_of_refuses hq rfl (Reader.refuses_denominator hclose htail)
    | false =>
      obtain ⟨f, hmake⟩ :
          ∃ f, Fraction.make? (Reader.integer n) (Reader.integer ds.reverse) = some f :=
        ⟨_, if_neg (by rw [hzero]; exact Bool.false_ne_true)⟩
      have hclose : Reader.close n k ds.reverse = .ok f := by rw [Reader.close, hmake]
      have hpush : Program.push ⟨fs.reverse⟩ (Reader.integer n) (Reader.integer ds.reverse) =
          .ok ⟨(f :: fs).reverse⟩ := by
        rw [Program.push, Fraction.make, hmake, List.reverse_cons]
        rfl
      rw [if_neg Bool.false_ne_true, hpush]
      refine readRest_eq hq htail hclose ?_
      intro rest' hlt
      exact ih rest' (Nat.lt_of_lt_of_le hlt (by simp))

/-- A slash must be behind the numerator. -/
theorem readSlash_eq (h : Looks broken k rest p) (hrest : symbolOf rest.head? ≠ .digit)
    (ih : ∀ rest', rest'.length < rest.length → Agrees broken rest') :
    (((do expect .slash; next; readDenominator ⟨fs.reverse⟩ (Reader.integer n)) >>= readRest).run
      p).1 = Reader.readOn broken ⟨fs, k, .numerator n⟩ rest := by
  by_cases hslash : symbolOf rest.head? = .slash
  · cases rest with
    | nil => cases hslash
    | cons c rest =>
      obtain rfl := (ofChar_eq_slash_iff c).1 hslash
      have htake : Reader.take ⟨fs, k, .numerator n⟩ '/' = .ok ⟨fs, k + 1, .slash n⟩ := rfl
      rw [Reader.readOn_cons htake, run_bind_bind, run_bind_ok (run_expect_met h hslash),
        run_bind_bind]
      refine (takes_next h).answer ?_
      intro q hq
      refine readDenominator_eq hq ?_
      intro rest' hlt
      exact ih rest' (Nat.lt_succ_of_lt hlt)
  · refine agree_of_refuses h ?_ (Reader.refuses_numerator hrest hslash)
    rw [run_bind_bind, run_bind_error (run_expect_refused h hslash)]

end

theorem agrees (broken : Bool) (rest : List Char) : Agrees broken rest := by
  -- Along the length: behind a comma the text is shorter.
  induction hlength : rest.length using Nat.strongRecOn generalizing rest with
  | ind length ih =>
    subst hlength
    intro fs k p hfs h
    rw [readFraction, run_bind_bind]
    obtain ⟨ds, tail, rfl, hds, htail⟩ := exists_digits rest
    by_cases hnil : ds = []
    · subst hnil
      refine agree_of_refuses h ?_ (Reader.refuses_fraction ?_ htail)
      · rw [run_bind_error (run_readInteger_refused h htail)]
      · intro hnone
        exact hfs (List.head?_eq_none_iff.1 hnone)
    · have hnumeral : IsNumeral ds := ⟨hnil, hds⟩
      rw [Reader.readOn_append (foldlM_numerator fs k hnumeral)]
      refine (takes_integer h hnumeral htail).answer ?_
      intro q hq
      refine readSlash_eq hq htail ?_
      intro rest' hlt
      exact ih _ (Nat.lt_of_lt_of_le hlt (by simp)) rest' rfl

/-- At the start of a stream nothing is left of what the parser held, apart from the symbol. -/
theorem run_next_opened (p : Parser) (s : Stream) :
    next.run (p.opened s) =
      match s.text.toList with
      | [] =>
        if s.broken then
          (.error .unreadableSource, ⟨[], true, p.symbol, Char.ofNat 0, Char.ofNat 0, 0⟩)
        else (.ok (), ⟨[], false, .finish, Char.ofNat 0, Char.ofNat 0, 0⟩)
      | c :: rest => (.ok (), ⟨rest, s.broken, .ofChar c, c, Char.ofNat 0, 0⟩) := by
  simp only [next, Parser.advance, Parser.opened]
  cases s.text.toList with
  | nil => cases s.broken <;> rfl
  | cons c rest => rfl

/-- The parser gives what the reader gives, whatever an earlier stream has left it with. -/
theorem Parser.parse_eq (p : Parser) (s : Stream) : (p.parse s).1 = s.parse := by
  have hnext := run_next_opened p s
  rw [Stream.parse_eq_readOn, parse, readProgram]
  cases htext : s.text.toList with
  | nil =>
    rw [htext] at hnext
    cases hbroken : s.broken with
    | false =>
      rw [hbroken] at hnext
      rw [run_bind_ok hnext]
      rfl
    | true =>
      rw [hbroken] at hnext
      rw [run_bind_error hnext]
      rfl
  | cons c rest =>
    rw [htext] at hnext
    have hlooks : Looks s.broken 0 (c :: rest) ⟨rest, s.broken, .ofChar c, c, Char.ofNat 0, 0⟩ :=
      .char 0 c rest _
    rw [run_bind_ok hnext, run_bind_ok (show (view Parser.symbol).run _ = (.ok _, _) from rfl),
      if_neg (ofChar_ne_finish c)]
    exact agrees s.broken (c :: rest) [] 0 _ (fun h => absurd h (List.cons_ne_nil _ _)) hlooks

/-- Whatever it was left with, a parser gives a program for a stream that ends iff the text is one
    or more fractions with commas between and no denominator is zero; the program has these
    fractions in their order, each in lowest terms and equal to the quotient of the two decimal
    numbers. Any other text is malformed. -/
theorem Parser.parse_eq_ok_iff_spells (parser : Parser) (text : String) (p : Program) :
    ((parser.parse ⟨text, false⟩).1 = .ok p ↔
      ∃ ws, Spells text.toList ws ∧ (∀ w ∈ ws, w.denValue ≠ 0) ∧
        List.Forall₂ Written.Denotes ws p.fractions) ∧
    ((∃ q, (parser.parse ⟨text, false⟩).1 = .ok q) ∨
      ∃ fault, (parser.parse ⟨text, false⟩).1 = .error (.malformedSource fault)) := by
  rw [Parser.parse_eq]
  exact ⟨Stream.parse_eq_ok_iff_denotes text p, Stream.parse_ok_or_malformed text⟩

end Fractran.Source
