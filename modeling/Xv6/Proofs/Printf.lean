import Xv6.Printf

/-!
# What `vprintf` prints
-/

namespace Xv6

namespace Printf

variable {b m n : Nat} {x : BitVec 32} {ap ap' : List Arg} {fmt s t : List UInt8}

/-! ### Numerals -/

/-- The numeral of `n` to base `b`, without leading zeros; letters are upper case. -/
def numeral (b n : Nat) : List UInt8 := (Nat.toDigits b n).map fun c => c.toUpper.toUInt8

def decimal (z : Int) : List UInt8 := if z < 0 then minus :: numeral 10 z.natAbs else numeral 10 z.natAbs

theorem digitChar_eq : ∀ d < 16, (Nat.digitChar d).toUpper.toUInt8 = digits.getD d 0 := by
  decide

theorem numeral_eq (hb : 1 < b) (hb' : b ≤ 16) :
    numeral b n = if n < b then [digits.getD n 0] else numeral b (n / b) ++ [digits.getD (n % b) 0] := by
  rw [numeral, Nat.toDigits_eq_if hb]
  split
  · rw [List.map_singleton, digitChar_eq n (by omega)]
  · rw [List.map_append, List.map_singleton, digitChar_eq _ ((Nat.mod_lt n (by omega)).trans_le hb'), numeral]

theorem length_numeral_le_iff {k : Nat} (hb : 1 < b) (hk : 0 < k) : (numeral b n).length ≤ k ↔ n < b ^ k := by
  rw [numeral, List.length_map, Nat.length_toDigits_le_iff hb hk]

theorem length_numeral_mono (h : m ≤ n) : (numeral 10 m).length ≤ (numeral 10 n).length := by
  have hpos : 0 < (numeral 10 n).length := by rw [numeral, List.length_map]; exact Nat.length_toDigits_pos
  rw [length_numeral_le_iff (by decide) hpos]
  exact h.trans_lt ((length_numeral_le_iff (by decide) hpos).mp (le_rfl))

theorem digits_inj : ∀ d < 16, ∀ e < 16, digits.getD d 0 = digits.getD e 0 → d = e := by
  decide

theorem numeral_inj (h : numeral 10 m = numeral 10 n) : m = n := by
  induction m using Nat.strong_induction_on generalizing n with
  | _ m ih =>
    rw [numeral_eq (n := m) (by decide) (by decide), numeral_eq (n := n) (by decide) (by decide)] at h
    have hne : ∀ k, numeral 10 k ≠ [] := fun k => by rw [numeral, Ne, List.map_eq_nil_iff]; exact Nat.toDigits_ne_nil
    split_ifs at h with hm hn hn
    · exact digits_inj m (by omega) n (by omega) (List.singleton_inj.mp h)
    · exact absurd (List.append_eq_singleton_iff.mp h.symm) (by simp [hne])
    · exact absurd (List.append_eq_singleton_iff.mp h) (by simp [hne])
    · obtain ⟨h1, h2⟩ := List.append_inj' h rfl
      have := ih (m / 10) (by omega) h1
      have := digits_inj _ (by omega) _ (by omega) (List.singleton_inj.mp h2)
      omega

theorem digits_ne_minus : ∀ d < 16, digits.getD d 0 ≠ minus := by
  decide

theorem minus_notMem_numeral : minus ∉ numeral 10 n := by
  induction n using Nat.strong_induction_on with
  | _ n ih =>
    rw [numeral_eq (by decide) (by decide)]
    split
    · exact fun h => digits_ne_minus n (by omega) (List.mem_singleton.mp h).symm
    · rw [List.mem_append, not_or]
      exact ⟨ih (n / 10) (by omega), fun h => digits_ne_minus _ (by omega) (List.mem_singleton.mp h).symm⟩

theorem digitLoop_eq {base : BitVec 32} {room : Nat} (hb : 1 < base.toNat) (hb' : base.toNat ≤ 16) (h : x.toNat < base.toNat ^ room)
    (hroom : 0 < room) : digitLoop base room x = some (numeral base.toNat x.toNat).reverse := by
  induction room generalizing x with
  | zero => exact absurd hroom (lt_irrefl 0)
  | succ room ih =>
    have h0 : x / base = 0 ↔ x.toNat < base.toNat := by
      rw [← BitVec.toNat_inj, BitVec.toNat_udiv, show BitVec.toNat (0 : BitVec 32) = 0 from rfl, Nat.div_eq_zero_iff]
      omega
    rw [digitLoop, numeral_eq hb hb', BitVec.toNat_umod]
    by_cases hlt : x.toNat < base.toNat
    · rw [if_neg (not_not.mpr (h0.mpr hlt)), if_pos hlt, Nat.mod_eq_of_lt hlt]
      rfl
    · rw [if_pos (fun he => hlt (h0.mp he)), if_neg hlt]
      have hroom' : room ≠ 0 := by
        rintro rfl
        rw [zero_add, Nat.pow_one] at h
        exact hlt h
      rw [ih (by rw [BitVec.toNat_udiv]; exact Nat.div_lt_of_lt_mul (by rwa [Nat.pow_succ'] at h)) (by omega), BitVec.toNat_udiv]
      simp

/-- `printint` without a sign; the buffer is large enough. -/
theorem printint_unsigned {base : BitVec 32} (hb : 1 < base.toNat) (hb' : base.toNat ≤ 16) (h : 2 ^ 32 ≤ base.toNat ^ bufSize) :
    printint x base false = some (numeral base.toNat x.toNat) := by
  simp only [printint, Bool.false_and, Bool.false_eq_true, if_false]
  rw [digitLoop_eq hb hb' (x.isLt.trans_le h) (by decide)]
  simp

theorem printint_signed : printint x 10 true = some (decimal x.toInt) := by
  have hloop : ∀ y : BitVec 32, digitLoop 10 bufSize y = some (numeral 10 y.toNat).reverse := fun y =>
    digitLoop_eq (by decide) (by decide) (y.isLt.trans_le (by decide)) (by decide)
  simp only [printint, Bool.true_and, decide_eq_true_eq, decimal]
  by_cases hneg : x.toInt < 0
  · have hx : (-x).toNat = x.toInt.natAbs := by
      have := BitVec.toInt_eq_toNat_cond x
      rw [BitVec.toNat_neg]
      split at this <;> omega
    have hlen : (numeral 10 x.toInt.natAbs).reverse.length < bufSize := by
      rw [List.length_reverse]
      exact lt_of_le_of_lt ((length_numeral_le_iff (k := 10) (by decide) (by decide)).mpr (by omega)) (by decide)
    rw [if_pos hneg, if_pos hneg, hloop, hx]
    simp only [Option.bind_eq_bind, Option.bind_some, if_pos hneg, if_pos hlen]
    simp
  · have hx : x.toNat = x.toInt.natAbs := by
      have := BitVec.toInt_eq_toNat_cond x
      split at this <;> omega
    rw [if_neg hneg, if_neg hneg, hloop, hx]
    simp only [Option.bind_eq_bind, Option.bind_some, if_neg hneg]
    simp

theorem ptrLoop_eq {x : BitVec 64} (hn : n ≤ 16) :
    ptrLoop n x = (List.range n).map fun k => digits.getD (x.toNat / 16 ^ (15 - k) % 16) 0 := by
  induction n generalizing x with
  | zero => rfl
  | succ n ih =>
    have hx := x.isLt
    rw [ptrLoop, List.range_succ_eq_map, List.map_cons, List.map_map, ih (by omega)]
    congr 1
    · congr 1
      rw [BitVec.toNat_ushiftRight, Nat.shiftRight_eq_div_pow]
      omega
    · refine List.map_congr_left fun k hk => ?_
      have hk := List.mem_range.mp hk
      obtain ⟨j, hj⟩ : ∃ j, 15 = k + 1 + j := ⟨15 - (k + 1), by omega⟩
      rw [Function.comp_apply, BitVec.toNat_shiftLeft, Nat.shiftLeft_eq, show 15 - k = j + 1 by omega,
        show 15 - k.succ = j by omega]
      congr 1
      calc x.toNat * 2 ^ 4 % 2 ^ 64 / 16 ^ (j + 1) % 16
          = 16 * (x.toNat % 16 ^ 15) / (16 * 16 ^ j) % 16 := by
            rw [mul_comm x.toNat, show 2 ^ 64 = 16 * 16 ^ 15 by decide, show 2 ^ 4 = 16 by decide, Nat.mul_mod_mul_left,
              show 16 ^ (j + 1) = 16 * 16 ^ j from Nat.pow_succ']
        _ = x.toNat % (16 ^ j * 16 ^ (k + 1)) / 16 ^ j % 16 := by
            rw [Nat.mul_div_mul_left _ _ (by decide), ← Nat.pow_add, add_comm j, ← hj]
        _ = x.toNat / 16 ^ j % 16 := by
            rw [Nat.mod_mul_right_div_self, Nat.mod_mod_of_dvd _ (Dvd.intro_left (16 ^ k) (Nat.pow_succ ..).symm)]

/-! ### Formats -/

/-- A part of a format: text, or a conversion of the next argument. -/
inductive Piece
  | text (s : List UInt8)
  | dec
  | long
  | hex
  | ptr
  | str
  | chr
deriving DecidableEq

namespace Piece

def ofChar (c : UInt8) : Piece :=
  if c = 'd'.toUInt8 then dec
  else if c = 'l'.toUInt8 then long
  else if c = 'x'.toUInt8 then hex
  else if c = 'p'.toUInt8 then ptr
  else if c = 's'.toUInt8 then str
  else if c = 'c'.toUInt8 then chr
  else text (if c = percent then [c] else [percent, c])

/-- A lone `%` at the end is left out. -/
def parse : (fmt : List UInt8) → List Piece
  | [] => []
  | [c] => if c = percent then [] else [text [c]]
  | c :: d :: fmt => if c = percent then ofChar d :: parse fmt else text [c] :: parse (d :: fmt)

/-- The expansion of a piece, and the arguments that are left; `lnum` is how an argument of `%l` is written. -/
def expand (lnum : BitVec 64 → List UInt8) : Piece → List Arg → Option (List UInt8 × List Arg)
  | text s, ap => some (s, ap)
  | dec, .word x :: ap => some (decimal (x.setWidth 32).toInt, ap)
  | long, .word x :: ap => some (lnum x, ap)
  | hex, .word x :: ap => some (numeral 16 (x.setWidth 32).toNat, ap)
  | ptr, .word x :: ap =>
    some ('0'.toUInt8 :: 'x'.toUInt8 :: (List.range 16).map fun k => digits.getD (x.toNat / 16 ^ (15 - k) % 16) 0, ap)
  | str, .str s :: ap => some (s.getD null, ap)
  | chr, .word x :: ap => some ([.ofBitVec (x.setWidth 8)], ap)
  | _, _ => none

def expandAll (lnum : BitVec 64 → List UInt8) : List Piece → List Arg → Option (List UInt8)
  | [], _ => some []
  | p :: ps, ap => (p.expand lnum ap).bind fun r => (expandAll lnum ps r.2).map (r.1 ++ ·)

end Piece

/-- The reference: the text for a format and its arguments, if these match. -/
def reference (fmt : List UInt8) (ap : List Arg) : Option (List UInt8) := Piece.expandAll (fun x => numeral 10 x.toNat) (Piece.parse fmt) ap

def short (x : BitVec 64) : List UInt8 := numeral 10 (x.setWidth 32).toNat

theorem convert_eq (c : UInt8) (ap : List Arg) : convert c ap = (Piece.ofChar c).expand short ap := by
  have hdec : ∀ y : BitVec 32, printint y 10 false = some (numeral 10 y.toNat) := fun y =>
    printint_unsigned (by decide) (by decide) (by decide)
  have hhex : ∀ y : BitVec 32, printint y 16 false = some (numeral 16 y.toNat) := fun y =>
    printint_unsigned (by decide) (by decide) (by decide)
  simp only [convert, Piece.ofChar, printint_signed, hdec, hhex, printptr, ptrLoop_eq (Nat.le_refl 16)]
  split_ifs
  all_goals
    rcases ap with _ | ⟨_ | _, ap⟩ <;> rfl

theorem vprintf_eq (fmt : List UInt8) (ap : List Arg) : vprintf fmt false ap = Piece.expandAll short (Piece.parse fmt) ap := by
  induction fmt using Piece.parse.induct generalizing ap with
  | case1 => rfl
  | case2 => rfl
  | case3 c hc => rw [vprintf, if_neg hc, Piece.parse, if_neg hc]; rfl
  | case4 d fmt ih =>
    rw [vprintf, if_pos rfl, vprintf, Piece.parse, if_pos rfl, Piece.expandAll, convert_eq]
    simp only [ih]
  | case5 c d fmt hc ih => rw [vprintf, if_neg hc, Piece.parse, if_neg hc, ih]; rfl

namespace Piece

def rest : Piece → List Arg → List Arg
  | text _, ap => ap
  | _, ap => ap.tail

/-- The argument of a `%l` is a 32-bit number. -/
def Fits : Piece → List Arg → Prop
  | long, .word x :: _ => x.toNat < 2 ^ 32
  | _, _ => True

def AllFit : List Piece → List Arg → Prop
  | [], _ => True
  | p :: ps, ap => p.Fits ap ∧ AllFit ps (p.rest ap)

variable {ps : List Piece} {p : Piece} {lnum : BitVec 64 → List UInt8}

theorem rest_of_expand (h : p.expand lnum ap = some (t, ap')) : p.rest ap = ap' := by
  revert h
  rcases ap with _ | ⟨_ | _, ap⟩ <;> cases p <;> simp [expand, rest]

/-- A piece is not longer with `%l` cut to 32 bits, and it is the same if that is the number. -/
theorem expand_short (h : p.expand (fun x => numeral 10 x.toNat) ap = some (t, ap')) :
    ∃ t', p.expand short ap = some (t', ap') ∧ t'.length ≤ t.length ∧ (t' = t ↔ p.Fits ap) := by
  have hmod : ∀ x : BitVec 64, (x.setWidth 32).toNat = x.toNat % 2 ^ 32 := fun x => BitVec.toNat_setWidth ..
  rcases p with s | _ | _ | _ | _ | _ | _
  case long =>
    rcases ap with _ | ⟨x | s, ap⟩
    · cases h
    · obtain ⟨rfl, rfl⟩ := Prod.mk.inj (Option.some.inj h)
      refine ⟨short x, rfl, length_numeral_mono (by rw [hmod]; exact Nat.mod_le ..), fun he => ?_, fun hx => ?_⟩
      · have := numeral_inj he
        rw [hmod] at this
        exact lt_of_le_of_lt (le_of_eq this.symm) (Nat.mod_lt _ (by decide))
      · rw [short, hmod, Nat.mod_eq_of_lt hx]
    · cases h
  all_goals
    refine ⟨t, ?_, le_rfl, iff_of_true rfl ?_⟩
    · rw [← h]
      rcases ap with _ | ⟨_ | _, ap⟩ <;> rfl
    · rcases ap with _ | ⟨_ | _, ap⟩ <;> trivial

theorem expandAll_short (h : expandAll (fun x => numeral 10 x.toNat) ps ap = some s) :
    ∃ s', expandAll short ps ap = some s' ∧ s'.length ≤ s.length ∧ (s' = s ↔ AllFit ps ap) := by
  induction ps generalizing ap s with
  | nil => exact ⟨s, h, le_rfl, iff_of_true rfl trivial⟩
  | cons p ps ih =>
    obtain ⟨⟨t, ap'⟩, ht, h⟩ := Option.bind_eq_some_iff.mp h
    obtain ⟨u, hu, rfl⟩ := Option.map_eq_some_iff.mp h
    obtain ⟨t', ht', hlt, hfit⟩ := expand_short ht
    obtain ⟨u', hu', hlu, hfits⟩ := ih hu
    refine ⟨t' ++ u', ?_, ?_, ?_⟩
    · rw [expandAll, ht', Option.bind_some, hu']
      rfl
    · simp only [List.length_append]
      omega
    · rw [AllFit, rest_of_expand ht, ← hfit, ← hfits]
      refine ⟨fun he => ?_, fun ⟨h1, h2⟩ => by rw [h1, h2]⟩
      have hlen := congrArg List.length he
      simp only [List.length_append] at hlen
      exact List.append_inj he (by omega)

end Piece

/-- A format with arguments that match it is printed as it should be if and only if every argument of a `%l` is below `2 ^ 32`. -/
theorem vprintf_iff {fmt : List UInt8} {ap : List Arg} {out : List UInt8} (h : reference fmt ap = some out) :
    vprintf fmt false ap = some out ↔ Piece.AllFit (Piece.parse fmt) ap := by
  obtain ⟨s, hs, -, hfit⟩ := Piece.expandAll_short h
  rw [vprintf_eq, hs, Option.some_inj, hfit]

/-- `%l` of `2 ^ 32` -/
theorem vprintf_long : reference [percent, 'l'.toUInt8] [.word (2 ^ 32)] = some (numeral 10 (2 ^ 32)) ∧
    vprintf [percent, 'l'.toUInt8] false [.word (2 ^ 32)] = some ['0'.toUInt8] :=
  ⟨by decide, by decide⟩

theorem vprintf_iff_long : vprintf [percent, 'l'.toUInt8] false [.word 7] = some ['7'.toUInt8] :=
  (vprintf_iff (by decide)).mpr ⟨show (7 : BitVec 64).toNat < 2 ^ 32 by decide, trivial⟩

/-! ### `gettime` -/

theorem vprintf_append (h : percent ∉ s) : vprintf (s ++ fmt) false ap = (vprintf fmt false ap).map (s ++ ·) := by
  induction s with
  | nil => simp
  | cons c s ih =>
    rw [List.mem_cons, not_or] at h
    rw [List.cons_append, vprintf, if_neg (Ne.symm h.1), ih h.2, Option.map_map]
    rfl

theorem gettime_eq (t : BitVec 64) :
    gettime t = some (gettimePrefix ++ (decimal ((t / 1000000000).setWidth 32).toInt ++ ['\n'.toUInt8])) := by
  rw [gettime, vprintf_append (by decide), vprintf, if_pos rfl, vprintf, convert, if_pos rfl, vaWord]
  simp only [Option.bind_eq_bind, Option.bind_some, printint_signed]
  rfl

/-- The seconds are printed if and only if they are below `2 ^ 31`. -/
theorem gettime_iff (t : BitVec 64) :
    gettime t = some (gettimePrefix ++ (numeral 10 (t.toNat / 10 ^ 9) ++ ['\n'.toUInt8])) ↔ t.toNat / 10 ^ 9 < 2 ^ 31 := by
  rw [gettime_eq, Option.some_inj, List.append_cancel_left_eq, List.append_cancel_right_eq]
  generalize hy : (t / 1000000000).setWidth 32 = y
  have hmod : y.toNat = t.toNat / 10 ^ 9 % 2 ^ 32 := by
    rw [← hy, BitVec.toNat_setWidth, BitVec.toNat_udiv]
    rfl
  have hint := BitVec.toInt_eq_toNat_cond y
  rw [decimal]
  constructor
  · intro he
    split_ifs at he with hneg
    · exact absurd (he ▸ List.mem_cons_self) minus_notMem_numeral
    · have := numeral_inj he
      split at hint <;> omega
  · intro hlt
    split at hint
    · rw [if_neg (by omega)]
      congr 1
      omega
    · omega

/-- In 2038. -/
theorem gettime_2038 : gettime (BitVec.ofNat 64 (2 ^ 31 * 10 ^ 9)) =
    some (gettimePrefix ++ "-2147483648\n".toList.map Char.toUInt8) := by
  rw [gettime_eq]
  decide

end Printf

end Xv6
