/-
  Products of fractions in registers.

  A product cancels crosswise and is not reduced afterwards. It is the same, word for word, as
  multiplying out and reducing once at the end (`mul_eq_reduce`), because both are in lowest terms
  and denote the same rational. So fractions multiply like rationals: in any order, with one as
  the unit, and every quotient is undone by the quotient upside down (`productLaws`).
-/
import Fractran.Proofs.Fraction.Registers

namespace Fractran.Fraction

/-- Products with `f`, `g` and `h` follow the laws of the rationals, as far as `==` can tell. -/
structure ProductLaws (f g h : Fraction) : Prop where
  comm : (f * g == g * f) = true
  assoc : (f * g * h == f * (g * h)) = true
  one_left : (ofInteger .one * f == f) = true
  one_right : (f * ofInteger .one == f) = true
  undone : ∀ x y : Integer, x.Canonical → y.Canonical → x.toInt ≠ 0 → y.toInt ≠ 0 →
    ∃ u v, make x y = .ok u ∧ make y x = .ok v ∧ (f * u * v == f) = true

/-! ## Multiplying out -/

theorem toInt_mul_den_ne_zero {f g : Fraction} (hf : f.Reduced) (hg : g.Reduced) :
    (f.den * g.den).toInt ≠ 0 := by
  have hpos := Int.mul_pos hf.2.2.1 hg.2.2.1
  rw [Integer.toInt_mul]
  omega

theorem mul_eq_reduce {f g : Fraction} (hf : f.Reduced) (hg : g.Reduced) :
    f * g = reduce (f.num * g.num) (f.den * g.den) := by
  have hne := toInt_mul_den_ne_zero hf hg
  have hnum := Integer.canonical_mul f.num g.num
  have hden := Integer.canonical_mul f.den g.den
  apply eq_of_toRat_eq (reduced_mul hf hg) (reduced_reduce hnum hden hne)
  calc (f * g).toRat = f.toRat * g.toRat := toRat_mul hf hg
    _ = (f.num.toInt * g.num.toInt) / (f.den.toInt * g.den.toInt) := div_mul_div_comm ..
    _ = ((f.num * g.num).toInt : ℚ) / (f.den * g.den).toInt := by
      rw [Integer.toInt_mul, Integer.toInt_mul, Int.cast_mul, Int.cast_mul]
    _ = (reduce (f.num * g.num) (f.den * g.den)).toRat := (toRat_reduce hnum hden hne).symm

/-! ## The laws of multiplication -/

theorem mul_comm_of_reduced {f g : Fraction} (hf : f.Reduced) (hg : g.Reduced) : f * g = g * f := by
  apply eq_of_toRat_eq (reduced_mul hf hg) (reduced_mul hg hf)
  rw [toRat_mul hf hg, toRat_mul hg hf, mul_comm]

theorem mul_assoc_of_reduced {f g h : Fraction} (hf : f.Reduced) (hg : g.Reduced)
    (hh : h.Reduced) : f * g * h = f * (g * h) := by
  have hfg := reduced_mul hf hg
  have hgh := reduced_mul hg hh
  apply eq_of_toRat_eq (reduced_mul hfg hh) (reduced_mul hf hgh)
  rw [toRat_mul hfg hh, toRat_mul hf hg, toRat_mul hf hgh, toRat_mul hg hh, mul_assoc]

theorem mul_one_of_reduced {f : Fraction} (hf : f.Reduced) : f * ofInteger .one = f := by
  have hone := reduced_ofInteger Integer.canonical_one
  apply eq_of_toRat_eq (reduced_mul hf hone) hf
  rw [toRat_mul hf hone, toRat_ofInteger, Integer.toInt_one, Int.cast_one, mul_one]

/-- A quotient and the quotient upside down cancel. -/
theorem mul_reduce_mul_reduce {f : Fraction} (hf : f.Reduced) {x y : Integer} (hx : x.Canonical)
    (hy : y.Canonical) (hx0 : x.toInt ≠ 0) (hy0 : y.toInt ≠ 0) :
    f * reduce x y * reduce y x = f := by
  have hu := reduced_reduce hx hy hy0
  have hv := reduced_reduce hy hx hx0
  have hfu := reduced_mul hf hu
  have hx' : (x.toInt : ℚ) ≠ 0 := by exact_mod_cast hx0
  have hy' : (y.toInt : ℚ) ≠ 0 := by exact_mod_cast hy0
  apply eq_of_toRat_eq (reduced_mul hfu hv) hf
  calc (f * reduce x y * reduce y x).toRat
      = f.toRat * (x.toInt / y.toInt) * (y.toInt / x.toInt) := by
        rw [toRat_mul hfu hv, toRat_mul hf hu, toRat_reduce hx hy hy0, toRat_reduce hy hx hx0]
    _ = f.toRat * ((x.toInt / y.toInt) * (y.toInt / x.toInt)) := mul_assoc ..
    _ = f.toRat := by rw [div_mul_div_cancel₀ hy', div_self hx', mul_one]

theorem productLaws {f g h : Fraction} (hf : f.Reduced) (hg : g.Reduced) (hh : h.Reduced) :
    ProductLaws f g h where
  comm := beq_iff_eq.2 (mul_comm_of_reduced hf hg)
  assoc := beq_iff_eq.2 (mul_assoc_of_reduced hf hg hh)
  one_left := by
    rw [mul_comm_of_reduced (reduced_ofInteger Integer.canonical_one) hf]
    exact beq_iff_eq.2 (mul_one_of_reduced hf)
  one_right := beq_iff_eq.2 (mul_one_of_reduced hf)
  undone := by
    intro x y hx hy hx0 hy0
    refine ⟨reduce x y, reduce y x, make_eq_ok_iff.2 ⟨hy0, rfl⟩, make_eq_ok_iff.2 ⟨hx0, rfl⟩, ?_⟩
    exact beq_iff_eq.2 (mul_reduce_mul_reduce hf hx hy hx0 hy0)

namespace Registers

/-- Whatever is in the registers, for any two of them or one taken twice: multiplying in place, the
    product and the quotient of the products multiplied out are the same fraction, word for word,
    and it is the product of the rationals. -/
theorem crosswise_product_eq_reduced {regs : Registers} (hr : Reachable regs)
    (target left right other : Nat) :
    let f := regs.get left
    let g := regs.get right
    regs.exec (.multiply left right) = .ok (regs.set left (f * g)) ∧
    regs.exec (.product target left right) = .ok (regs.set target (f * g)) ∧
    make (f.num * g.num) (f.den * g.den) = .ok (f * g) ∧
    (f * g).toRat = f.toRat * g.toRat ∧
    ProductLaws f g (regs.get other) := by
  intro f g
  have hf : f.Reduced := reduced_get hr.reduced left
  have hg : g.Reduced := reduced_get hr.reduced right
  refine ⟨rfl, rfl, ?_, toRat_mul hf hg, productLaws hf hg (reduced_get hr.reduced other)⟩
  exact make_eq_ok_iff.2 ⟨toInt_mul_den_ne_zero hf hg, mul_eq_reduce hf hg⟩

/-- `-6/4` times `10/9` is `-5/3`, as is `-30/18`. -/
theorem crosswise_product_eq_reduced_five_thirds :
    ∃ regs : Registers, Reachable regs ∧
      regs = [⟨.ofInt64 (-3), .ofInt64 2⟩, ⟨.ofInt64 10, .ofInt64 9⟩] ∧
      regs.exec (.multiply 0 1) =
        .ok [⟨.ofInt64 (-5), .ofInt64 3⟩, ⟨.ofInt64 10, .ofInt64 9⟩] ∧
      make (.ofInt64 (-30)) (.ofInt64 18) = .ok ⟨.ofInt64 (-5), .ofInt64 3⟩ := by
  have hmake : make (.ofInt64 (-6)) (.ofInt64 4) = .ok ⟨.ofInt64 (-3), .ofInt64 2⟩ := by
    decide +kernel
  have hmake' : make (.ofInt64 10) (.ofInt64 9) = .ok ⟨.ofInt64 10, .ofInt64 9⟩ := by
    decide +kernel
  have hreach : Reachable [⟨.ofInt64 (-3), .ofInt64 2⟩, ⟨.ofInt64 10, .ofInt64 9⟩] := by
    apply Reachable.start
    rw [List.forall_mem_cons, List.forall_mem_singleton]
    exact ⟨.quotient (Integer.canonical_ofInt64 _) (Integer.canonical_ofInt64 _) hmake,
      .quotient (Integer.canonical_ofInt64 _) (Integer.canonical_ofInt64 _) hmake'⟩
  obtain ⟨hmultiply, -, hquotient, -, -⟩ := crosswise_product_eq_reduced hreach 0 0 1 0
  have hproduct : get [⟨.ofInt64 (-3), .ofInt64 2⟩, ⟨.ofInt64 10, .ofInt64 9⟩] 0 *
      get [⟨.ofInt64 (-3), .ofInt64 2⟩, ⟨.ofInt64 10, .ofInt64 9⟩] 1 =
        ⟨.ofInt64 (-5), .ofInt64 3⟩ := by decide +kernel
  rw [hproduct] at hmultiply hquotient
  exact ⟨_, hreach, rfl, hmultiply, hquotient⟩

end Registers

end Fractran.Fraction
