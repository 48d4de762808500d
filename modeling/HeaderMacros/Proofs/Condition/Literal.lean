import HeaderMacros.Proofs.Condition.Spelling
import HeaderMacros.Proofs.Text.Lines
import Mathlib.Data.List.Forall2
import Mathlib.Data.Nat.Digits.Defs

/-!
# Integer literals

Which texts are integers in a condition, told without reading them digit by digit.

- `Numeral`: one or more digits of a base and their value, by `Nat.ofDigits`. Leading zeros add
  nothing to it.
- `IsStem`: a literal without all of the suffix letters that it ends in.
- `Denotes`: the integer of a literal without suffix, which is hexadecimal with 32 bits, or decimal
  with at most one sign and in the range of 32 bits.
- `integer_eq_ok_iff_denotes`: these texts and no others are read, however many digits they have,
  and the text of every result is one of them.
-/

namespace HeaderMacros.Condition

variable {base n v : Nat} {b : UInt8} {text stem digits : Text} {value : Int32}

/-! ## Numerals -/

/-- The digits of bases up to sixteen in the order of their values, with letters of either case. -/
def digitTables : List Text := [ascii "0123456789abcdef", ascii "0123456789ABCDEF"]

/-- A byte is the digit of a base with the given value. -/
def IsDigitOf (base : Nat) (b : UInt8) (v : Nat) : Prop :=
  v < base ∧ ∃ table ∈ digitTables, table[v]? = some b

instance (base : Nat) (b : UInt8) (v : Nat) : Decidable (IsDigitOf base b v) :=
  inferInstanceAs (Decidable (_ ∧ _))

/-- One or more digits of a base, the highest one first, and their value. -/
def Numeral (base : Nat) (text : Text) (n : Nat) : Prop :=
  text ≠ [] ∧ ∃ digits, List.Forall₂ (IsDigitOf base) text digits ∧
    Nat.ofDigits base digits.reverse = n

/-- Zeros in front of a numeral mean nothing. -/
theorem Numeral.zeros_append (hbase : 0 < base) (h : Numeral base text n) (count : Nat) :
    Numeral base (List.replicate count 0x30 ++ text) n := by
  obtain ⟨hne, values, hvalues, hvalue⟩ := h
  have hzero : IsDigitOf base 0x30 0 := ⟨hbase, by decide⟩
  have hzeros : List.Forall₂ (IsDigitOf base) (List.replicate count 0x30)
      (List.replicate count 0) := by
    induction count with
    | zero => exact .nil
    | succ count ih => exact .cons hzero ih
  refine ⟨List.append_ne_nil_of_right_ne_nil _ hne, List.replicate count 0 ++ values,
    List.rel_append hzeros hvalues, ?_⟩
  rw [List.reverse_append, List.reverse_replicate, Nat.ofDigits_append_replicate_zero, hvalue]

/-- Exactly the digits of a base are read, which is checked byte by byte and digit by digit. -/
theorem eq_some_iff_isDigitOf {value? : UInt8 → Option Nat}
    (hbytes : ∀ k < 256, ∀ v ∈ value? (UInt8.ofNat k), IsDigitOf base (UInt8.ofNat k) v)
    (hdigits : ∀ v < base, ∀ table ∈ digitTables, ∀ b ∈ table[v]?, value? b = some v) :
    value? b = some v ↔ IsDigitOf base b v := by
  constructor
  · intro h
    rw [← UInt8.ofNat_toNat (x := b)] at h ⊢
    exact hbytes b.toNat b.toNat_lt v h
  · rintro ⟨hv, table, htable, hb⟩
    exact hdigits v hv table htable b hb

theorem decimalValue?_eq_some_iff : decimalValue? b = some v ↔ IsDigitOf 10 b v :=
  eq_some_iff_isDigitOf (by decide +kernel) (by decide +kernel)

theorem hexValue?_eq_some_iff : Byte.hexValue? b = some v ↔ IsDigitOf 16 b v :=
  eq_some_iff_isDigitOf (by decide +kernel) (by decide +kernel)

theorem mapM_eq_some_iff {value? : UInt8 → Option Nat} {values : List Nat} :
    text.mapM value? = some values ↔
      List.Forall₂ (fun b v => value? b = some v) text values := by
  induction text generalizing values with
  | nil => simp [eq_comm]
  | cons b text ih =>
    rw [List.mapM_cons, List.forall₂_cons_left_iff]
    simp only [Option.bind_eq_bind, Option.bind_eq_some_iff, Option.pure_def, Option.some.injEq, ih]
    constructor
    · rintro ⟨v, hv, values, hvalues, rfl⟩
      exact ⟨v, values, hv, hvalues, rfl⟩
    · rintro ⟨v, values, hv, hvalues, rfl⟩
      exact ⟨v, hv, values, hvalues, rfl⟩

/-- Digits are read exactly if they are a numeral. -/
theorem digits?_eq_some_iff {value? : UInt8 → Option Nat}
    (hvalue : ∀ b v, value? b = some v ↔ IsDigitOf base b v) :
    digits? base value? text = some n ↔ Numeral base text n := by
  have hread (values : List Nat) :
      text.mapM value? = some values ↔ List.Forall₂ (IsDigitOf base) text values := by
    rw [mapM_eq_some_iff]
    simp only [hvalue]
  -- Reading goes on from the highest digit, `Nat.ofDigits` from the lowest.
  have hfold (values : List Nat) :
      values.foldl (fun n digit => n * base + digit) 0 = Nat.ofDigits base values.reverse := by
    rw [Nat.ofDigits_eq_foldr, List.foldr_reverse]
    simp only [Nat.cast_id, Nat.add_comm, Nat.mul_comm]
  rw [digits?, Numeral]
  constructor
  · intro h
    split at h
    · cases h
    · cases h
    · rename_i d ds hvalues
      have hdigits := (hread _).1 hvalues
      refine ⟨?_, d :: ds, hdigits, (hfold _).symm.trans (Option.some.inj h)⟩
      rintro rfl
      cases hdigits
  · rintro ⟨hne, values, hdigits, rfl⟩
    rw [(hread values).2 hdigits]
    cases hdigits with
    | nil => exact absurd rfl hne
    | cons => exact congrArg some (hfold _)

/-! ## Literals without suffix -/

/-- What remains of a literal without all of the suffix letters that it ends in. -/
def IsStem (stem text : Text) : Prop :=
  ∃ suffix, text = stem ++ suffix ∧ (∀ b ∈ suffix, b ∈ ascii "Ll") ∧
    ∀ b ∈ stem.getLast?, b ∉ ascii "Ll"

theorem isSuffix_eq_true_iff : isSuffix b = true ↔ b ∈ ascii "Ll" := by
  rw [isSuffix, Bool.or_eq_true, beq_iff_eq, beq_iff_eq]
  show _ ↔ b ∈ [0x4C, 0x6C]
  rw [List.mem_pair]

theorem isStem_iff : IsStem stem text ↔ Text.dropRightWhile isSuffix text = stem := by
  constructor
  · rintro ⟨suffix, rfl, hsuffix, hlast⟩
    have hfront : ∀ b ∈ suffix.reverse, isSuffix b = true :=
      fun b hb => isSuffix_eq_true_iff.2 (hsuffix b (List.mem_reverse.1 hb))
    have hrest : ∀ b ∈ stem.reverse.head?, isSuffix b = false := by
      intro b hb
      rw [List.head?_reverse] at hb
      exact Bool.eq_false_iff.2 fun h => hlast b hb (isSuffix_eq_true_iff.1 h)
    rw [Text.dropRightWhile, List.reverse_append, (Text.span_append hfront hrest).2,
      List.reverse_reverse]
  · rintro rfl
    obtain ⟨front, rest, htext, hfront, hrest⟩ := Text.exists_span isSuffix text.reverse
    rw [Text.dropRightWhile, htext, (Text.span_append hfront hrest).2]
    refine ⟨front.reverse, ?_, ?_, ?_⟩
    · rw [← List.reverse_append, ← htext, List.reverse_reverse]
    · exact fun b hb => isSuffix_eq_true_iff.1 (hfront b (List.mem_reverse.1 hb))
    · intro b hb hmem
      rw [List.getLast?_reverse] at hb
      rw [← isSuffix_eq_true_iff, hrest b hb] at hmem
      cases hmem

/-- At most one sign, a decimal numeral, and the integer that they spell. -/
inductive Signed : Text → Int → Prop where
  /-- Without a sign. -/
  | unsigned {digits : Text} {n : Nat} (h : Numeral 10 digits n) : Signed digits n
  /-- With a plus sign. -/
  | plus {digits : Text} {n : Nat} (h : Numeral 10 digits n) : Signed (ascii "+" ++ digits) n
  /-- With a minus sign. -/
  | minus {digits : Text} {n : Nat} (h : Numeral 10 digits n) : Signed (ascii "-" ++ digits) (-n)

/-- The integer of a literal without suffix. -/
inductive Denotes : Text → Int → Prop where
  /-- The digits after a mark give 32 bits, of which the highest one is the sign. -/
  | hexadecimal {stem digits : Text} {bits : Nat}
    (hmark : stem = ascii "0x" ++ digits ∨ stem = ascii "0X" ++ digits)
    (hdigits : Numeral 16 digits bits) (hrange : bits < 2 ^ 32) :
    Denotes stem (if bits < 2 ^ 31 then bits else bits - 2 ^ 32)
  /-- The digits of all other literals are decimal; they could not be so after a mark. -/
  | decimal {stem : Text} {n : Int} (hstem : Signed stem n)
    (hrange : -2 ^ 31 ≤ n ∧ n ≤ 2 ^ 31 - 1) : Denotes stem n

theorem hexadecimal?_eq_some_iff :
    hexadecimal? stem = some digits ↔ stem = ascii "0x" ++ digits ∨ stem = ascii "0X" ++ digits := by
  constructor
  · intro h
    unfold hexadecimal? at h
    split at h
    · split_ifs at h with hmark
      cases h
      obtain ⟨rfl, rfl | rfl⟩ := hmark
      · exact .inl rfl
      · exact .inr rfl
    · cases h
  · rintro (rfl | rfl) <;> rfl

theorem digits?_decimal_eq_some_iff :
    digits? 10 decimalValue? text = some n ↔ Numeral 10 text n :=
  digits?_eq_some_iff fun _ _ => decimalValue?_eq_some_iff

theorem digits?_hexadecimal_eq_some_iff :
    digits? 16 Byte.hexValue? text = some n ↔ Numeral 16 text n :=
  digits?_eq_some_iff fun _ _ => hexValue?_eq_some_iff

/-- Every byte of a decimal numeral is a digit. -/
theorem Numeral.isDigit (h : Numeral 10 text n) : ∀ b ∈ text, Byte.isDigit b = true := by
  obtain ⟨-, values, hvalues, -⟩ := h
  induction hvalues with
  | nil => exact List.forall_mem_nil _
  | cons hdigit _ ih =>
    refine List.forall_mem_cons.2 ⟨?_, ih⟩
    have hvalue := decimalValue?_eq_some_iff.2 hdigit
    rw [decimalValue?] at hvalue
    split_ifs at hvalue with hb
    exact hb

theorem signed?_eq_some_iff {n : Int} : signed? text = some n ↔ Signed text n := by
  constructor
  · intro h
    cases text with
    | nil => cases h
    | cons b rest =>
      rw [signed?] at h
      split_ifs at h with hplus hminus
      all_goals
        obtain ⟨m, hm, rfl⟩ := Option.map_eq_some_iff.1 h
        rw [digits?_decimal_eq_some_iff] at hm
      · exact hplus ▸ .plus hm
      · exact hminus ▸ .minus hm
      · exact .unsigned hm
  · rintro (h | h | h)
    · obtain ⟨b, rest, rfl⟩ := List.exists_cons_of_ne_nil h.1
      have hb := h.isDigit b List.mem_cons_self
      rw [signed?, if_neg (ne_of_isDigit hb (by decide)), if_neg (ne_of_isDigit hb (by decide)),
        digits?_decimal_eq_some_iff.2 h]
      rfl
    · exact congrArg (Option.map Int.ofNat) (digits?_decimal_eq_some_iff.2 h)
    · exact congrArg (Option.map fun n => -Int.ofNat n) (digits?_decimal_eq_some_iff.2 h)

/-- A decimal literal has no mark. -/
theorem Signed.hexadecimal?_eq_none {n : Int} (h : Signed stem n) : hexadecimal? stem = none := by
  have hfirst {sign : UInt8} (hsign : sign ≠ 0x30) {digits : Text} :
      hexadecimal? (sign :: digits) = none := by
    unfold hexadecimal?
    split
    · rename_i hcons
      obtain ⟨rfl, -⟩ := List.cons.inj hcons
      exact if_neg fun hmark => hsign hmark.1
    · rfl
  cases h with
  | unsigned h => exact hexadecimal?_of_isDigit h.isDigit
  | plus => exact hfirst (by decide)
  | minus => exact hfirst (by decide)

/-! ## Values -/

/-- After a mark a literal is hexadecimal. -/
theorem denotes_iff_of_mark (hmark : hexadecimal? stem = some digits) {n : Int} :
    Denotes stem n ↔ ∃ bits, Numeral 16 digits bits ∧ bits < 2 ^ 32 ∧
      n = if bits < 2 ^ 31 then (bits : Int) else bits - 2 ^ 32 := by
  constructor
  · rintro (⟨hmark', hdigits, hrange⟩ | ⟨hstem, -⟩)
    · rw [← hexadecimal?_eq_some_iff, hmark] at hmark'
      cases hmark'
      exact ⟨_, hdigits, hrange, rfl⟩
    · rw [hstem.hexadecimal?_eq_none] at hmark
      cases hmark
  · rintro ⟨bits, hdigits, hrange, rfl⟩
    exact .hexadecimal (hexadecimal?_eq_some_iff.1 hmark) hdigits hrange

/-- Without a mark a literal is decimal. -/
theorem denotes_iff_of_no_mark (hmark : hexadecimal? stem = none) {n : Int} :
    Denotes stem n ↔ Signed stem n ∧ -2 ^ 31 ≤ n ∧ n ≤ 2 ^ 31 - 1 := by
  constructor
  · rintro (⟨hmark', -, -⟩ | ⟨hstem, hrange⟩)
    · rw [← hexadecimal?_eq_some_iff, hmark] at hmark'
      cases hmark'
    · exact ⟨hstem, hrange⟩
  · rintro ⟨hstem, hrange⟩
    exact .decimal hstem hrange

/-- The highest of 32 bits is the sign. -/
theorem toInt_ofNat_bits {bits : Nat} (h : bits < 2 ^ 32) :
    (Int32.ofNat bits).toInt = if bits < 2 ^ 31 then (bits : Int) else bits - 2 ^ 32 := by
  rw [Int32.toInt_ofNat', Int.bmod_def, show Int32.size = 2 ^ 32 from rfl]
  split_ifs <;> omega

/-- A literal is read as the integer that it denotes without its suffix. -/
theorem integer?_eq_some_iff_denotes (hstem : IsStem stem text) :
    integer? text = some value ↔ Denotes stem value.toInt := by
  rw [isStem_iff] at hstem
  cases hmark : hexadecimal? stem with
  | some digits =>
    have hread : integer? text = some value ↔ ∃ bits, digits? 16 Byte.hexValue? digits = some bits ∧
        bits < 2 ^ 32 ∧ Int32.ofNat bits = value := by
      simp only [integer?, hstem, hmark]
      cases digits? 16 Byte.hexValue? digits <;> simp
    rw [hread, denotes_iff_of_mark hmark]
    refine exists_congr fun bits =>
      and_congr digits?_hexadecimal_eq_some_iff (and_congr_right fun hrange => ?_)
    rw [← toInt_ofNat_bits hrange, Int32.toInt_inj, eq_comm]
  | none =>
    have hread : integer? text = some value ↔ ∃ n, signed? stem = some n ∧
        (-2 ^ 31 ≤ n ∧ n < 2 ^ 31) ∧ Int32.ofInt n = value := by
      simp only [integer?, hstem, hmark]
      cases signed? stem <;> simp
    rw [hread, denotes_iff_of_no_mark hmark, ← signed?_eq_some_iff]
    constructor
    · rintro ⟨n, hn, hrange, rfl⟩
      rw [Int32.toInt_ofInt_of_le hrange.1 hrange.2]
      exact ⟨hn, by omega⟩
    · rintro ⟨hn, hrange⟩
      exact ⟨value.toInt, hn, by omega, Int32.ofInt_toInt value⟩

/-- What a literal denotes is an integer of 32 bits. -/
theorem Denotes.exists_toInt {n : Int} (h : Denotes stem n) : ∃ value : Int32, value.toInt = n := by
  rcases h with ⟨-, -, hrange⟩ | ⟨-, hrange⟩
  · exact ⟨_, toInt_ofNat_bits hrange⟩
  · exact ⟨Int32.ofInt n, Int32.toInt_ofInt_of_le (by omega) (by omega)⟩

theorem integer_eq_error_iff :
    integer text = .error (.valueless .invalidInteger text) ↔ integer? text = none := by
  unfold integer
  cases integer? text <;> simp

/-- A decimal numeral is read as its value if that is an integer of 32 bits. -/
theorem Numeral.integer_eq_ok_iff (h : Numeral 10 text n) :
    integer text = .ok value ↔ value.toInt = n := by
  have hstem : IsStem text text := by
    refine ⟨[], (List.append_nil text).symm, List.forall_mem_nil _, fun b hb hmem => ?_⟩
    have hsuffix := isSuffix_of_isDigit (h.isDigit b (List.mem_of_getLast? hb))
    rw [isSuffix_eq_true_iff.2 hmem] at hsuffix
    cases hsuffix
  have hsigned : signed? text = some (n : Int) := signed?_eq_some_iff.2 (.unsigned h)
  rw [Condition.integer_eq_ok_iff, integer?_eq_some_iff_denotes hstem,
    denotes_iff_of_no_mark (Signed.unsigned h).hexadecimal?_eq_none, ← signed?_eq_some_iff, hsigned,
    Option.some.injEq]
  have hlow := value.le_toInt
  have hhigh := value.toInt_lt
  omega

/-- An integer is read from a literal and from nothing else, whatever the number of its digits, and
zeros before decimal digits mean nothing. Of the texts that reduction writes, all are read again,
and those of integers that are not negative are words. -/
theorem integer_eq_ok_iff_denotes :
    (∀ text value, integer text = .ok value ↔
      ∃ stem, IsStem stem text ∧ Denotes stem value.toInt) ∧
    (∀ text, integer text = .error (.valueless .invalidInteger text) ↔
      ¬ ∃ stem n, IsStem stem text ∧ Denotes stem n) ∧
    (∀ count digits n value, Numeral 10 digits n →
      (integer (List.replicate count 0x30 ++ digits) = .ok value ↔ value.toInt = n)) ∧
    ∀ n : Int32, integer (Text.ofInt n.toInt) = .ok n ∧
      ((Token.classify (Text.ofInt n.toInt)).isWord = true ↔ 0 ≤ n.toInt) := by
  have hread (text : Text) (value : Int32) : integer? text = some value ↔
      ∃ stem, IsStem stem text ∧ Denotes stem value.toInt := by
    constructor
    · intro h
      exact ⟨_, isStem_iff.2 rfl, (integer?_eq_some_iff_denotes (isStem_iff.2 rfl)).1 h⟩
    · rintro ⟨stem, hstem, h⟩
      exact (integer?_eq_some_iff_denotes hstem).2 h
  refine ⟨fun text value => integer_eq_ok_iff.trans (hread text value), fun text => ?_,
    fun count digits n value h => (h.zeros_append (by decide) count).integer_eq_ok_iff,
    fun n => ⟨integer_eq_ok_iff.2 (integer?_ofInt n), ?_⟩⟩
  · rw [integer_eq_error_iff, Option.eq_none_iff_forall_ne_some]
    constructor
    · -- What is denoted is in the range of the values, so it would have been read.
      rintro h ⟨stem, n, hstem, hn⟩
      obtain ⟨value, rfl⟩ := hn.exists_toInt
      exact h value ((hread text value).2 ⟨stem, hstem, hn⟩)
    · intro h value hvalue
      obtain ⟨stem, hstem, hn⟩ := (hread text value).1 hvalue
      exact h ⟨stem, value.toInt, hstem, hn⟩
  · rw [← resultToken, isWord_resultToken, decide_eq_true_iff]

/-- The lowest integer in both notations, and one more than the highest one. -/
example : integer (ascii "0x80000000L") = .ok (-0x80000000) ∧
    integer (ascii "-002147483648lL") = .ok (-0x80000000) ∧
    integer (ascii "2147483648") = .error (.valueless .invalidInteger (ascii "2147483648")) := by
  decide +kernel

end HeaderMacros.Condition
