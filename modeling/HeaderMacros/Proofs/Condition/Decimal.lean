import HeaderMacros.Condition.Reduce
import HeaderMacros.Proofs.Token.Lexing

/-!
# Decimal texts of results

A result of reduction is written as its decimal text. Reading that text gives the result back
(`integer?_ofInt`), and the text is a word exactly if the result is not negative
(`isWord_resultToken`).
-/

namespace HeaderMacros.Condition

/-! ## Digits -/

theorem toNat_of_isDigit {c : Char} (h : c.isDigit = true) :
    (UInt8.ofNat c.toNat).toNat = c.toNat ∧ 0x30 ≤ c.toNat ∧ c.toNat ≤ 0x39 := by
  have hrange : 0x30 ≤ c.toNat ∧ c.toNat ≤ 0x39 := by
    rw [Char.isDigit, Bool.and_eq_true, decide_eq_true_iff, decide_eq_true_iff] at h
    exact h
  refine ⟨?_, hrange⟩
  rw [UInt8.toNat_ofNat', Nat.mod_eq_of_lt (by omega)]

theorem isDigit_ofNat_toNat {c : Char} (h : c.isDigit = true) :
    Byte.isDigit (UInt8.ofNat c.toNat) = true := by
  obtain ⟨hbyte, hlow, hhigh⟩ := toNat_of_isDigit h
  rw [Byte.isDigit, Bool.and_eq_true, decide_eq_true_iff, decide_eq_true_iff,
    UInt8.le_iff_toNat_le, UInt8.le_iff_toNat_le, hbyte]
  exact ⟨hlow, hhigh⟩

theorem decimalValue?_of_isDigit {c : Char} (h : c.isDigit = true) :
    decimalValue? (UInt8.ofNat c.toNat) = some (c.toNat - '0'.toNat) := by
  rw [decimalValue?, if_pos (isDigit_ofNat_toNat h), (toNat_of_isDigit h).1]
  rfl

theorem mapM_decimalValue? {cs : List Char} (h : ∀ c ∈ cs, c.isDigit = true) :
    (cs.map fun c => UInt8.ofNat c.toNat).mapM decimalValue? =
      some (cs.map fun c => c.toNat - '0'.toNat) := by
  induction cs with
  | nil => rfl
  | cons c cs ih =>
    rw [List.map_cons, List.mapM_cons, decimalValue?_of_isDigit (h c List.mem_cons_self),
      ih fun d hd => h d (List.mem_cons_of_mem c hd)]
    rfl

/-- Reading the digits of a number gives the number. -/
theorem digits?_ofNat (n : Nat) : digits? 10 decimalValue? (Text.ofNat n) = some n := by
  have hdigits : ∀ c ∈ Nat.toDigits 10 n, c.isDigit = true := fun c hc =>
    Nat.isDigit_of_mem_toDigits (by decide) (by decide) hc
  have hvalue : ((Nat.toDigits 10 n).map fun c => c.toNat - '0'.toNat).foldl
      (fun n digit => n * 10 + digit) 0 = n := by
    rw [List.foldl_map]
    refine Eq.trans ?_ Nat.ofDigitChars_ten_toDigits
    simp only [Nat.ofDigitChars, Nat.mul_comm]
  rw [digits?, Text.ofNat, mapM_decimalValue? hdigits]
  cases hcs : Nat.toDigits 10 n with
  | nil => exact absurd hcs Nat.toDigits_ne_nil
  | cons c cs =>
    rw [hcs] at hvalue
    exact congrArg some hvalue

theorem isDigit_of_mem_ofNat {n : Nat} {b : UInt8} (h : b ∈ Text.ofNat n) :
    Byte.isDigit b = true := by
  obtain ⟨c, hc, rfl⟩ := List.mem_map.1 h
  exact isDigit_ofNat_toNat (Nat.isDigit_of_mem_toDigits (by decide) (by decide) hc)

theorem ofNat_ne_nil (n : Nat) : Text.ofNat n ≠ [] := by
  rw [Text.ofNat, Ne, List.map_eq_nil_iff]
  exact Nat.toDigits_ne_nil

/-! ## Integers -/

theorem ne_of_isDigit {b c : UInt8} (h : Byte.isDigit b = true) (hc : Byte.isDigit c = false) :
    b ≠ c := by
  rintro rfl
  exact absurd (h.symm.trans hc) (by decide)

theorem dropRightWhile_isSuffix {text : Text} (h : ∀ b ∈ text, isSuffix b = false) :
    Text.dropRightWhile isSuffix text = text := by
  have hdrop : text.reverse.dropWhile isSuffix = text.reverse := by
    cases hrev : text.reverse with
    | nil => rfl
    | cons b rest =>
      have hb : b ∈ text := List.mem_reverse.1 (hrev ▸ List.mem_cons_self)
      rw [List.dropWhile_cons, h b hb, if_neg Bool.false_ne_true]
  rw [Text.dropRightWhile, hdrop, List.reverse_reverse]

theorem isSuffix_of_isDigit {b : UInt8} (h : Byte.isDigit b = true) : isSuffix b = false := by
  rw [isSuffix, Bool.or_eq_false_iff, beq_eq_false_iff_ne, beq_eq_false_iff_ne]
  exact ⟨ne_of_isDigit h (by decide), ne_of_isDigit h (by decide)⟩

theorem hexadecimal?_of_isDigit {text : Text} (h : ∀ b ∈ text, Byte.isDigit b = true) :
    hexadecimal? text = none := by
  unfold hexadecimal?
  split
  · rename_i zero x rest
    have hx : Byte.isDigit x = true := h x (by simp)
    refine if_neg ?_
    rintro ⟨-, rfl | rfl⟩ <;> exact absurd hx (by decide)
  · rfl

/-- A number is read from its digits. -/
theorem signed?_ofNat (n : Nat) : signed? (Text.ofNat n) = some (Int.ofNat n) := by
  have hread := digits?_ofNat n
  have hdigit : ∀ b ∈ Text.ofNat n, Byte.isDigit b = true := fun _ => isDigit_of_mem_ofNat
  cases htext : Text.ofNat n with
  | nil => exact absurd htext (ofNat_ne_nil n)
  | cons b rest =>
    rw [htext] at hread hdigit
    have hb := hdigit b List.mem_cons_self
    rw [signed?, if_neg (ne_of_isDigit hb (by decide)), if_neg (ne_of_isDigit hb (by decide)),
      hread]
    rfl

/-- Reading the decimal text of an integer gives the integer. -/
theorem integer?_ofInt (n : Int32) : integer? (Text.ofInt n.toInt) = some n := by
  have hrange : -0x80000000 ≤ n.toInt ∧ n.toInt < 0x80000000 := ⟨n.le_toInt, n.toInt_lt⟩
  have hdigit : ∀ b ∈ Text.ofNat n.toInt.natAbs, Byte.isDigit b = true :=
    fun _ => isDigit_of_mem_ofNat
  -- A decimal text has no mark, no suffix letter, and a sign only if the integer is negative.
  have hread : hexadecimal? (Text.ofInt n.toInt) = none ∧
      signed? (Text.ofInt n.toInt) = some n.toInt ∧
      Text.dropRightWhile isSuffix (Text.ofInt n.toInt) = Text.ofInt n.toInt := by
    by_cases hneg : n.toInt < 0
    · rw [Text.ofInt, if_pos hneg]
      refine ⟨?_, ?_, ?_⟩
      · cases htext : Text.ofNat n.toInt.natAbs with
        | nil => rfl
        | cons b rest =>
          rw [hexadecimal?]
          exact if_neg fun h => absurd h.1 (by decide)
      · rw [signed?, if_neg (by decide), if_pos rfl, digits?_ofNat, Option.map_some]
        rw [Int.ofNat_eq_natCast, Int.ofNat_natAbs_of_nonpos (by omega), Int.neg_neg]
      · refine dropRightWhile_isSuffix fun b hb => ?_
        rcases List.mem_cons.1 hb with rfl | hb
        · decide
        · exact isSuffix_of_isDigit (hdigit b hb)
    · rw [Text.ofInt, if_neg hneg]
      refine ⟨hexadecimal?_of_isDigit hdigit, ?_,
        dropRightWhile_isSuffix fun b hb => isSuffix_of_isDigit (hdigit b hb)⟩
      rw [signed?_ofNat, Int.ofNat_eq_natCast, Int.natAbs_of_nonneg (by omega)]
  obtain ⟨hhex, hsigned, hsuffix⟩ := hread
  simp only [integer?, hsuffix, hhex, hsigned]
  rw [if_pos hrange, Int32.ofInt_toInt]

/-- A text without digits and letters is no integer. -/
theorem integer?_of_isOther {text : Text} (h : ∀ b ∈ text, Token.isOther b = true) :
    integer? text = none := by
  have hword : ∀ b ∈ text, Byte.isWordByte b = false := fun b hb =>
    (Token.isOther_eq_true_iff.1 (h b hb)).2
  have hne {b c : UInt8} (hb : b ∈ text) (hc : Byte.isWordByte c = true) : b ≠ c := by
    rintro rfl
    exact absurd (hc.symm.trans (hword b hb)) (by decide)
  -- Each of the three steps wants a letter or a digit: the suffix, the mark and the digits.
  have hsuffix : Text.dropRightWhile isSuffix text = text := by
    refine dropRightWhile_isSuffix fun b hb => ?_
    rw [isSuffix, Bool.or_eq_false_iff, beq_eq_false_iff_ne, beq_eq_false_iff_ne]
    exact ⟨hne hb (by decide), hne hb (by decide)⟩
  have hhex : hexadecimal? text = none := by
    unfold hexadecimal?
    split
    · exact if_neg fun hmark => hne List.mem_cons_self (by decide) hmark.1
    · rfl
  have hdigits {rest : Text} (hrest : ∀ b ∈ rest, b ∈ text) :
      digits? 10 decimalValue? rest = none := by
    cases rest with
    | nil => rfl
    | cons b rest =>
      have hb : decimalValue? b = none := by
        refine if_neg fun hdigit => absurd (hword b (hrest b List.mem_cons_self)) ?_
        rw [Byte.isWordByte, hdigit, Bool.or_true]
        decide
      rw [digits?, List.mapM_cons, hb]
      rfl
  have hsigned : signed? text = none := by
    cases text with
    | nil => rfl
    | cons b rest =>
      rw [signed?, hdigits fun c hc => List.mem_cons_of_mem b hc, hdigits fun c hc => hc]
      split
      · rfl
      · split <;> rfl
  simp only [integer?, hsuffix, hhex, hsigned]

/-- A result is written as a word exactly if it is not negative. -/
theorem isWord_resultToken (n : Int32) : (resultToken n).isWord = decide (0 ≤ n.toInt) := by
  rw [resultToken, Token.isWord_classify, Text.ofInt]
  by_cases hneg : n.toInt < 0
  · -- The hyphen is of no word.
    rw [if_pos hneg, List.all_cons, decide_eq_false (by omega)]
    rfl
  · have hword : (Text.ofNat n.toInt.natAbs).all Byte.isWordByte = true := by
      refine List.all_eq_true.2 fun b hb => ?_
      rw [Byte.isWordByte, isDigit_of_mem_ofNat hb, Bool.or_true]
    rw [if_neg hneg, hword, List.isEmpty_eq_false_iff.2 (ofNat_ne_nil _),
      decide_eq_true (by omega)]
    rfl

end HeaderMacros.Condition
