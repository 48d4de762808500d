import HeaderMacros.Text.Case
import HeaderMacros.Proofs.Text.Lines
import Mathlib

/-!
# Characters and letter case

An ASCII byte is a character of its own wherever it stands, since no other character has such a byte
in it. So the characters of a text are those before an ASCII byte, the byte, and those after it
(`Utf8.decode_append`), and a text in lower case is put together from its pieces (`toLower_join`).

Two ways to disregard letter case are compared: the lower case of a text, and the representatives of
its characters (`folded`). The second tells the first if every character has its lower case as
representative (`toLower_eq_flatMap_folded`). Characters before the letters have no case at all, so
that dots and slashes can be told from the representatives (`eq_of_folded`, `mem_of_folded`).
-/

namespace HeaderMacros

namespace Utf8

variable {a b : UInt8} {text : Text} {code width : Nat}

/-! ## Characters -/

theorem le_of_isTail (h : isTail b = true) : 0x80 ≤ b := by
  rw [isTail, Bool.and_eq_true, decide_eq_true_iff] at h
  exact h.1

/-- The second byte of three or four is past ASCII, and so is what it stands for if the first byte
adds nothing to it. -/
theorem secondBounds_spec (hlow : (secondBounds a).1 ≤ b) (hhigh : b ≤ (secondBounds a).2) :
    0x80 ≤ b ∧ (a = 0xE0 ∨ a = 0xF0 → 0x10 ≤ tailBits b) := by
  unfold secondBounds at hlow hhigh
  rw [UInt8.le_iff_toNat_le]
  split_ifs at hlow hhigh <;>
    simp_all [UInt8.le_iff_toNat_le, tailBits] <;> omega

/-- A character of several bytes, of which the first is given, at the start of a text: it and all
its bytes are past ASCII, and nothing after them matters. -/
structure Multibyte (a : UInt8) (text : Text) (code width : Nat) : Prop where
  /-- The first byte is past ASCII. -/
  first : ¬ a < 0x80
  /-- The character is past ASCII. -/
  past : 0x80 ≤ code
  /-- The other bytes are past ASCII, and end the character. -/
  tails : ∃ tails rest, text = tails ++ rest ∧ width = tails.length + 1 ∧ (∀ t ∈ tails, 0x80 ≤ t) ∧
    ∀ other, sequence? (a :: (tails ++ other)) = some (code, width)

theorem multibyte_two {b : UInt8} (ha : ¬ a < 0x80) (hfirst : (0xC2 ≤ a && a ≤ 0xDF) = true)
    (hb : isTail b = true) (rest : Text) :
    Multibyte a (b :: rest) (a.toNat % 0x20 * 0x40 + tailBits b) 2 where
  first := ha
  past := by
    simp only [Bool.and_eq_true, decide_eq_true_eq, UInt8.le_iff_toNat_le,
      UInt8.reduceToNat] at hfirst
    omega
  tails := by
    refine ⟨[b], rest, rfl, rfl, by simpa using le_of_isTail hb, fun other => ?_⟩
    simp [sequence?, ha, hfirst, hb]

theorem multibyte_three {b c : UInt8} (ha : ¬ a < 0x80)
    (hnotTwo : ¬ (0xC2 ≤ a && a ≤ 0xDF) = true) (hfirst : (0xE0 ≤ a && a ≤ 0xEF) = true)
    (hbytes : ((secondBounds a).1 ≤ b && b ≤ (secondBounds a).2 && isTail c) = true) (rest : Text) :
    Multibyte a (b :: c :: rest)
      (a.toNat % 0x10 * 0x1000 + tailBits b * 0x40 + tailBits c) 3 := by
  simp only [Bool.and_eq_true, decide_eq_true_eq] at hbytes hfirst
  obtain ⟨⟨hlow, hhigh⟩, hc⟩ := hbytes
  obtain ⟨hb, hpayload⟩ := secondBounds_spec hlow hhigh
  refine ⟨ha, ?_, [b, c], rest, rfl, rfl, by simpa using ⟨hb, le_of_isTail hc⟩, fun other => ?_⟩
  · -- If the first byte adds nothing, the second one does.
    simp only [UInt8.le_iff_toNat_le, ← UInt8.toNat_inj, UInt8.reduceToNat] at hfirst hpayload
    omega
  · simp [sequence?, ha, hfirst, hlow, hhigh, hc, hnotTwo]

theorem multibyte_four {b c d : UInt8} (ha : ¬ a < 0x80)
    (hnotTwo : ¬ (0xC2 ≤ a && a ≤ 0xDF) = true) (hnotThree : ¬ (0xE0 ≤ a && a ≤ 0xEF) = true)
    (hfirst : (0xF0 ≤ a && a ≤ 0xF4) = true)
    (hbytes : ((secondBounds a).1 ≤ b && b ≤ (secondBounds a).2 && isTail c && isTail d) = true)
    (rest : Text) :
    Multibyte a (b :: c :: d :: rest)
      (a.toNat % 0x08 * 0x40000 + tailBits b * 0x1000 + tailBits c * 0x40 + tailBits d) 4 := by
  simp only [Bool.and_eq_true, decide_eq_true_eq] at hbytes hfirst
  obtain ⟨⟨⟨hlow, hhigh⟩, hc⟩, hd⟩ := hbytes
  obtain ⟨hb, hpayload⟩ := secondBounds_spec hlow hhigh
  refine ⟨ha, ?_, [b, c, d], rest, rfl, rfl,
    by simpa using ⟨hb, le_of_isTail hc, le_of_isTail hd⟩, fun other => ?_⟩
  · simp only [UInt8.le_iff_toNat_le, ← UInt8.toNat_inj, UInt8.reduceToNat] at hfirst hpayload
    omega
  · simp [sequence?, ha, hfirst, hlow, hhigh, hc, hd, hnotTwo, hnotThree]

/-- A character is an ASCII byte, or it has several bytes. -/
theorem sequence?_cases (h : sequence? (a :: text) = some (code, width)) :
    a < 0x80 ∧ code = a.toNat ∧ width = 1 ∨ Multibyte a text code width := by
  unfold sequence? at h
  simp only at h
  split at h
  · rename_i ha
    obtain ⟨rfl, rfl⟩ := Prod.mk.inj (Option.some.inj h)
    exact .inl ⟨ha, rfl, rfl⟩
  rename_i ha
  right
  split at h
  · rename_i hfirst
    split at h
    · split_ifs at h with hb
      obtain ⟨rfl, rfl⟩ := Prod.mk.inj (Option.some.inj h)
      exact multibyte_two ha hfirst hb _
    · cases h
  -- The first byte is none of two bytes, but it may be one of three.
  rename_i hnotTwo
  split at h
  · rename_i hfirst
    split at h
    · split_ifs at h with hbytes
      obtain ⟨rfl, rfl⟩ := Prod.mk.inj (Option.some.inj h)
      exact multibyte_three ha hnotTwo hfirst hbytes _
    · cases h
  -- What is left is a character of four bytes.
  rename_i hnotThree
  split_ifs at h with hfirst
  split at h
  · split_ifs at h with hbytes
    obtain ⟨rfl, rfl⟩ := Prod.mk.inj (Option.some.inj h)
    exact multibyte_four ha hnotTwo hnotThree hfirst hbytes _
  · cases h

theorem sequence?_of_ascii (hb : b < 0x80) (after : Text) :
    sequence? (b :: after) = some (b.toNat, 1) := by
  simp [sequence?, hb]

/-- A character has no more bytes than there are. -/
theorem width_le_of_sequence? (h : sequence? (a :: text) = some (code, width)) :
    width ≤ text.length + 1 := by
  rcases sequence?_cases h with ⟨-, -, rfl⟩ | ⟨-, -, tails, rest, rfl, rfl, -⟩
  · exact Nat.le_add_left 1 _
  · rw [List.length_append]
    omega

/-- No character goes on into an ASCII byte. -/
theorem sequence?_append (hb : b < 0x80) (a : UInt8) (text after : Text) :
    sequence? (a :: (text ++ b :: after)) = sequence? (a :: text) := by
  cases h : sequence? (a :: text) with
  | some found =>
    obtain ⟨code, width⟩ := found
    rcases sequence?_cases h with ⟨ha, rfl, rfl⟩ | ⟨-, -, tails, rest, rfl, -, -, hother⟩
    · exact sequence?_of_ascii ha _
    · rw [List.append_assoc]
      exact hother _
  | none =>
    by_contra hsome
    obtain ⟨⟨code, width⟩, hfound⟩ := Option.ne_none_iff_exists'.1 hsome
    rcases sequence?_cases hfound with ⟨ha, -, -⟩ | ⟨-, -, tails, rest, heq, -, htails, hother⟩
    · rw [sequence?_of_ascii ha] at h
      cases h
    · -- The byte is not one of the character, so this ends before it.
      rcases List.append_eq_append_iff.1 heq with ⟨more, rfl, hmore⟩ | ⟨more, rfl, -⟩
      · cases more with
        | nil =>
          rw [List.append_nil] at hother
          have hsame := hother []
          rw [List.append_nil, h] at hsame
          cases hsame
        | cons c more =>
          obtain ⟨rfl, -⟩ := List.cons.inj hmore
          exact absurd hb (UInt8.not_lt.2 (htails b (by simp)))
      · rw [hother more] at h
        cases h

theorem decodeFrom_append (hb : b < 0x80) (after : Text) {skip : Nat} {before : Text}
    (hskip : skip ≤ before.length) :
    decodeFrom skip (before ++ b :: after) =
      decodeFrom skip before ++ .scalar b.toNat :: decodeFrom 0 after := by
  induction before generalizing skip with
  | nil =>
    obtain rfl := Nat.le_zero.1 hskip
    simp only [List.nil_append, decodeFrom, sequence?_of_ascii hb, Nat.sub_self]
  | cons a before ih =>
    cases skip with
    | succ skip =>
      rw [List.cons_append, decodeFrom, decodeFrom]
      exact ih (Nat.le_of_succ_le_succ hskip)
    | zero =>
      rw [List.cons_append, decodeFrom, decodeFrom, sequence?_append hb]
      cases h : sequence? (a :: before) with
      | none => exact congrArg (Piece.stray a :: ·) (ih (Nat.zero_le _))
      | some found =>
        have hwidth := width_le_of_sequence? h
        exact congrArg (Piece.scalar found.1 :: ·) (ih (by omega))

/-- The characters of a text are those before an ASCII byte, the byte, and those after it. -/
theorem decode_append (hb : b < 0x80) (before after : Text) :
    decode (before ++ b :: after) = decode before ++ .scalar b.toNat :: decode after :=
  decodeFrom_append hb after (Nat.zero_le _)

/-- A character within ASCII comes from its byte. -/
theorem mem_of_mem_decodeFrom {skip : Nat} {p : Piece} (hp : p ∈ decodeFrom skip text)
    (hcode : p.code < 0x80) : ∃ b ∈ text, p.code = b.toNat := by
  induction text generalizing skip with
  | nil => simp [decodeFrom] at hp
  | cons a text ih =>
    have hrest {skip : Nat} (hp : p ∈ decodeFrom skip text) :
        ∃ b ∈ a :: text, p.code = b.toNat := by
      obtain ⟨b, hb, hcode⟩ := ih hp
      exact ⟨b, List.mem_cons_of_mem a hb, hcode⟩
    cases skip with
    | succ skip => exact hrest hp
    | zero =>
      rw [decodeFrom] at hp
      cases h : sequence? (a :: text) with
      | none =>
        rw [h] at hp
        rcases List.mem_cons.1 hp with rfl | hp
        · exact absurd hcode (by decide : ¬ replacement < 0x80)
        · exact hrest hp
      | some found =>
        rw [h] at hp
        rcases List.mem_cons.1 hp with rfl | hp
        · rcases sequence?_cases h with ⟨-, heq, -⟩ | ⟨-, hpast, -⟩
          · exact ⟨a, List.mem_cons_self, heq⟩
          · exact absurd hcode (Nat.not_lt.2 hpast)
        · exact hrest hp

/-- An ASCII byte is in a text exactly if its character is. -/
theorem mem_iff_exists_code (hb : b < 0x80) :
    b ∈ text ↔ ∃ p ∈ decode text, p.code = b.toNat := by
  constructor
  · intro hmem
    obtain ⟨before, after, rfl⟩ := List.append_of_mem hmem
    refine ⟨.scalar b.toNat, ?_, rfl⟩
    rw [decode_append hb]
    exact List.mem_append_right _ List.mem_cons_self
  · rintro ⟨p, hp, hcode⟩
    obtain ⟨b', hb', hcode'⟩ := mem_of_mem_decodeFrom hp (hcode ▸ UInt8.lt_iff_toNat_lt.1 hb)
    exact UInt8.toNat_inj.1 (hcode.symm.trans hcode') ▸ hb'

/-- A text whose characters are within ASCII is read byte by byte. -/
theorem codes_eq_of_ascii (h : ∀ p ∈ decode text, p.code < 0x80) :
    (decode text).map Piece.code = text.map UInt8.toNat := by
  induction text with
  | nil => rfl
  | cons a text ih =>
    rw [decode, decodeFrom] at h ⊢
    cases hfound : sequence? (a :: text) with
    | none =>
      rw [hfound] at h
      exact absurd (h _ List.mem_cons_self) (by decide : ¬ replacement < 0x80)
    | some found =>
      rw [hfound] at h
      rcases sequence?_cases hfound with ⟨-, hcode, hwidth⟩ | ⟨-, hpast, -⟩
      · simp only [hwidth, hcode, Nat.sub_self, List.forall_mem_cons] at h ⊢
        rw [List.map_cons, List.map_cons, ← ih h.2]
        rfl
      · exact absurd (h _ List.mem_cons_self) (Nat.not_lt.2 hpast)

end Utf8

namespace Text

open Utf8 (Piece decode encode)

/-! ## Representatives -/

/-- The representatives of the characters of a text. -/
def folded (text : Text) : List Nat := (decode text).map fun p => foldCode p.code

theorem equalFold_iff {first second : Text} :
    equalFold first second = true ↔ folded first = folded second := by
  rw [equalFold, beq_iff_eq]
  rfl

/-- Every character has its lower case as representative. -/
def FoldsToLower (text : Text) : Prop := ∀ p ∈ decode text, foldCode p.code = lowerCode p.code

instance (text : Text) : Decidable (FoldsToLower text) :=
  inferInstanceAs (Decidable (∀ p ∈ decode text, foldCode p.code = lowerCode p.code))

/-- The lower case of a text is told by the representatives of its characters, if they are their
lower case. -/
theorem toLower_eq_flatMap_folded {text : Text} (h : FoldsToLower text) :
    toLower text = (folded text).flatMap encode := by
  rw [toLower, folded, List.flatMap_map]
  exact List.flatMap_congr fun p hp => by rw [h p hp]

/-- The lower case of a character past ASCII is not before the letters. -/
theorem le_lowerCode {code : Nat} (hcode : 0x80 ≤ code) : 0x41 ≤ lowerCode code := by
  have hruns : ∀ r ∈ lowerRuns, 0x41 ≤ (r.first : Int) + r.offset := by decide +kernel
  rw [lowerCode, if_neg (Nat.not_lt.2 hcode)]
  split
  · rename_i r hr
    have hfirst : r.first ≤ code := by
      have hcontains := List.find?_some hr
      simp only [CaseRun.contains, Bool.and_eq_true, decide_eq_true_eq] at hcontains
      exact hcontains.1.1
    have hoffset := hruns r (List.mem_of_find?_eq_some hr)
    simp only [Int.ofNat_eq_natCast]
    omega
  · omega

/-- The representative of a character past ASCII is not before the letters. -/
theorem le_foldCode {code : Nat} (hcode : 0x80 ≤ code) : 0x41 ≤ foldCode code := by
  have hexceptions : ∀ e ∈ foldExceptions, 0x41 ≤ e.2 := by decide
  rw [foldCode]
  cases h : foldExceptions.lookup code with
  | none => exact le_lowerCode hcode
  | some representative =>
    obtain ⟨before, after, heq, -⟩ := List.lookup_eq_some_iff.1 h
    exact hexceptions (code, representative) (by simp [heq])

/-- The characters before the letters represent themselves only. -/
theorem foldCode_eq_iff {code other : Nat} (h : other < 0x41) :
    foldCode code = other ↔ code = other := by
  have hascii : ∀ code < 0x80, foldCode code < 0x41 → foldCode code = code := by decide
  have hself : ∀ code < 0x41, foldCode code = code := by decide
  constructor
  · rintro rfl
    by_cases hcode : code < 0x80
    · exact (hascii code hcode h).symm
    · exact absurd h (Nat.not_lt.2 (le_foldCode (Nat.not_lt.1 hcode)))
  · rintro rfl
    exact hself code h

theorem folded_of_lt {text : Text} (h : ∀ b ∈ text, b < 0x41) :
    folded text = text.map UInt8.toNat := by
  induction text with
  | nil => rfl
  | cons b text ih =>
    obtain ⟨hb, htext⟩ := List.forall_mem_cons.1 h
    have hascii : b < 0x80 := UInt8.lt_trans hb (by decide)
    have hdecode := Utf8.decode_append hascii [] text
    rw [List.nil_append] at hdecode
    rw [folded, hdecode, List.map_cons, ← ih htext]
    simp only [Utf8.decode, Utf8.decodeFrom, List.nil_append, List.map_cons, Piece.code]
    rw [(foldCode_eq_iff (UInt8.lt_iff_toNat_lt.1 hb)).2 rfl]
    rfl

/-- A text of characters before the letters is the only one with its representatives. -/
theorem eq_of_folded {first second : Text} (h : folded first = folded second)
    (hsecond : ∀ b ∈ second, b < 0x41) : first = second := by
  rw [folded_of_lt hsecond] at h
  have hcode (p : Piece) (hp : p ∈ decode first) :
      foldCode p.code = p.code ∧ p.code < 0x41 := by
    have hmem : foldCode p.code ∈ second.map UInt8.toNat := by
      rw [← h]
      exact List.mem_map_of_mem hp
    obtain ⟨b, hb, heq⟩ := List.mem_map.1 hmem
    have hlt : b.toNat < 0x41 := UInt8.lt_iff_toNat_lt.1 (hsecond b hb)
    have hsame := (foldCode_eq_iff hlt).1 heq.symm
    exact ⟨heq.symm.trans hsame.symm, hsame ▸ hlt⟩
  have hcodes : (decode first).map Piece.code = second.map UInt8.toNat := by
    rw [← h, folded]
    exact List.map_congr_left fun p hp => (hcode p hp).1.symm
  have hascii (p : Piece) (hp : p ∈ decode first) : p.code < 0x80 :=
    Nat.lt_trans (hcode p hp).2 (by decide)
  rw [Utf8.codes_eq_of_ascii hascii] at hcodes
  exact List.map_injective_iff.2 (fun _ _ => UInt8.toNat_inj.1) hcodes

/-- A byte before the letters is in all texts with the same representatives. -/
theorem mem_of_folded {first second : Text} (h : folded first = folded second) {b : UInt8}
    (hb : b < 0x41) (hmem : b ∈ first) : b ∈ second := by
  have hascii : b < 0x80 := UInt8.lt_trans hb (by decide)
  obtain ⟨p, hp, hcode⟩ := (Utf8.mem_iff_exists_code hascii).1 hmem
  have hfold : foldCode p.code ∈ folded second := by
    rw [← h]
    exact List.mem_map_of_mem hp
  obtain ⟨q, hq, hsame⟩ := List.mem_map.1 hfold
  rw [hcode, (foldCode_eq_iff (UInt8.lt_iff_toNat_lt.1 hb)).2 rfl,
    foldCode_eq_iff (UInt8.lt_iff_toNat_lt.1 hb)] at hsame
  exact (Utf8.mem_iff_exists_code hascii).2 ⟨q, hq, hsame⟩

/-! ## Lower case -/

theorem toLower_append {b : UInt8} (hb : b < 0x41) (before after : Text) :
    toLower (before ++ b :: after) = toLower before ++ b :: toLower after := by
  have hascii : b < 0x80 := UInt8.lt_trans hb (by decide)
  have hbyte : ∀ code < 0x41, lowerCode code = code ∧ encode code = [UInt8.ofNat code] := by decide
  obtain ⟨hlower, hencode⟩ := hbyte b.toNat (UInt8.lt_iff_toNat_lt.1 hb)
  rw [toLower, Utf8.decode_append hascii, List.flatMap_append, List.flatMap_cons]
  simp only [Piece.code, hlower, hencode, UInt8.ofNat_toNat]
  rfl

/-- The lower case of pieces with slashes between them. -/
theorem toLower_join (pieces : List Text) :
    toLower (join [Byte.slash] pieces) = join [Byte.slash] (pieces.map toLower) := by
  induction pieces with
  | nil => rfl
  | cons piece pieces ih =>
    cases pieces with
    | nil => rfl
    | cons next rest =>
      simp only [List.map_cons, join, List.append_assoc, List.singleton_append] at ih ⊢
      rw [toLower_append (by decide), ih]

end Text

end HeaderMacros
