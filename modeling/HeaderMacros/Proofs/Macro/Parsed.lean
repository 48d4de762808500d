import HeaderMacros.Macro.Table
import HeaderMacros.Proofs.Macro.Definition

/-!
# Macros from definitions

A macro is *parsed* if a definition directive or a command line option defines it. It is then
*regular*: the tokens of its replacement are proper, and none of its parameters is a parenthesis.
What names mean in a table of regular macros is regular too, as the test operator and names without
meaning are (`Table.forall_toMacro_lookup`).
-/

namespace HeaderMacros

/-- A token that has the kind of its text, which is not empty. The tokens of lines are proper. -/
def Token.Proper (t : Token) : Prop := Token.classify t.text = t ∧ t.text ≠ []

instance (t : Token) : Decidable t.Proper := inferInstanceAs (Decidable (_ ∧ _))

namespace Token

theorem proper_ofBool (v : Bool) : (ofBool v).Proper := by
  cases v <;> decide

/-- A proper token with the text of an operator is that operator. -/
theorem Proper.eq_classify {t : Token} (ht : t.Proper) {text : Text} (h : t.is text = true) :
    t = classify text := by
  rw [← ht.1, beq_iff_eq.1 h]

end Token

namespace Macro

/-- A definition directive or a command line option defines the macro. -/
def Parsed (m : Macro) : Prop :=
  (∃ line, ofTokens (Token.tokenize line) = .ok m) ∨ ∃ option, ofOption option = .ok m

/-- The tokens of the replacement are proper, and no parameter is a parenthesis. -/
structure Regular (m : Macro) : Prop where
  /-- The replacement consists of proper tokens. -/
  proper : ∀ t ∈ m.value, t.Proper
  /-- A parameter never stands for a parenthesis. -/
  params : ∀ p ∈ m.params.getD [], p ≠ [Byte.openParen] ∧ p ≠ [Byte.closeParen]

theorem Parsed.proper {m : Macro} (h : m.Parsed) : ∀ t ∈ m.value, t.Proper := by
  intro t ht
  rcases h with ⟨line, hline⟩ | ⟨option, hoption⟩
  · obtain ⟨name, rest, value, hparams, -, -, -, hsuffix, hvalue⟩ := ofTokens_eq_ok hline
    rw [hvalue] at ht
    have hrest := hsuffix.mem ((Token.trim_isInfix value).mem ht)
    have hmem : t ∈ Token.tokenize line := hparams ▸ List.mem_cons_of_mem name hrest
    exact Token.eq_classify_of_mem_tokenize hmem
  · unfold ofOption at hoption
    dsimp only at hoption
    split at hoption
    · split at hoption
      · cases hoption
        exact Token.eq_classify_of_mem_tokenize ((Token.trim_isInfix _).mem ht)
      · cases hoption
    · cases hoption

theorem Parsed.params {m : Macro} (h : m.Parsed) :
    ∀ p ∈ m.params.getD [], p ≠ [Byte.openParen] ∧ p ≠ [Byte.closeParen] := by
  intro p hp
  rcases h with ⟨line, hline⟩ | ⟨option, hoption⟩
  · obtain ⟨name, rest, value, hparams, -, -, hnames, -⟩ := ofTokens_eq_ok hline
    obtain ⟨t, ht, rfl, hword | hdots⟩ := hnames p hp
    · -- The bytes of a word are not parentheses.
      have hmem : t ∈ Token.tokenize line := hparams ▸ List.mem_cons_of_mem name ht
      have hbytes := (Token.isWordByte_of_isWord (Token.eq_classify_of_mem_tokenize hmem).1 hword).2
      constructor <;>
        · intro htext
          rw [htext] at hbytes
          exact absurd hbytes (by decide)
    · rw [hdots]
      decide
  · unfold ofOption at hoption
    dsimp only at hoption
    split at hoption
    · split at hoption
      · cases hoption
        exact absurd hp List.not_mem_nil
      · cases hoption
    · cases hoption

theorem Parsed.regular {m : Macro} (h : m.Parsed) : m.Regular := ⟨h.proper, h.params⟩

end Macro

namespace Table

/-- All macros of a table are parsed. -/
def Parsed (t : Table) : Prop := ∀ m ∈ t.macros, m.Parsed

/-- What names mean has a property of macros, if the macros of the table have it and those that
stand for the test operator and for names without meaning. -/
theorem forall_toMacro_lookup {P : Macro → Prop} (hoperator : P Meaning.definedOperator.toMacro)
    (hundefined : P Meaning.undefined.toMacro) {t : Table} (ht : ∀ m ∈ t.macros, P m)
    (name : Text) : P (t.lookup name).toMacro := by
  unfold lookup
  split
  · exact hoperator
  · split
    · rename_i m hentry
      refine ht m (mem_macros.2 ?_)
      rwa [t.name_eq name m hentry]
    · exact hundefined

theorem regular_toMacro_lookup {t : Table} (ht : ∀ m ∈ t.macros, m.Regular) (name : Text) :
    (t.lookup name).toMacro.Regular :=
  forall_toMacro_lookup ⟨by decide, by decide⟩ ⟨by decide, by decide⟩ ht name

end Table

end HeaderMacros
