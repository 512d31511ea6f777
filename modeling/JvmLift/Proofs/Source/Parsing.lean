import JvmLift.Proofs.Source.Lexing
import JvmLift.Proofs.Source.Reading

namespace JvmLift.Source

-- Whether a text is one for an expression without groups.
def Parses (text : String) (t : Phrase) : Prop :=
  ∃ a : Phrase, tokens? text.toList = some a.tokens ∧ a.isGrouped ∧ 2 ≤ a.level ∧ a.ungrouped = t

section Legible

variable {a : Phrase}

theorem endsInNumber_eq_isNumber (h : 12 ≤ a.level) : a.endsInNumber = a.isNumber := by
  have hreach := reach_of_level h
  cases a with
  | leaf _ | tail _ _ => rfl
  | head h' a =>
    cases hbracket : h'.bracket? with
    | none =>
      have hle := Head.level_le hbracket
      have hlevel : 12 ≤ h'.level := h
      omega
    | some b => simp [Phrase.endsInNumber, Phrase.isNumber, hbracket]
  | link a l b =>
    cases hbracket : l.bracket? with
    | none =>
      have hle := Link.level_le hbracket
      have hlevel : 12 ≤ l.level := h
      omega
    | some b => simp [Phrase.endsInNumber, Phrase.isNumber, hbracket]

theorem endsInNumber_of_isPath (h : a.isPath) : a.endsInNumber = false := by
  cases a with
  | leaf l => cases l <;> first | rfl | cases h
  | tail _ _ => rfl
  | _ => cases h

-- What is grouped is legible.
theorem isLegible_of_isGrouped (h : a.isGrouped) : a.isLegible := by
  induction a with
  | leaf l => rfl
  | head h' a ih =>
    obtain ⟨ha, hadmits⟩ := Bool.and_eq_true_iff.1 h
    rw [Phrase.isLegible, ih ha, Bool.true_and, Bool.not_eq_true', Bool.and_eq_false_imp]
    intro hnegate
    obtain rfl := of_decide_eq_true hnegate
    simp only [Head.admits, Bool.and_eq_true, Bool.not_eq_true'] at hadmits
    exact hadmits.2
  | tail a t ih =>
    obtain ⟨ha, hadmits⟩ := Bool.and_eq_true_iff.1 h
    rw [Phrase.isLegible, ih ha, Bool.true_and, Bool.not_eq_true', Bool.and_eq_false_imp]
    intro hnumber
    cases t with
    | field x | call x =>
      simp only [Tail.admits, Bool.and_eq_true, decide_eq_true_eq, Bool.not_eq_true'] at hadmits
      rw [endsInNumber_eq_isNumber hadmits.1, hadmits.2] at hnumber
      cases hnumber
    | classOf n =>
      rw [endsInNumber_of_isPath hadmits] at hnumber
      cases hnumber
    | instanceOf t => simp [Tail.text]
    | _ => simp [Tail.text]
  | link a l b iha ihb =>
    simp only [Phrase.isGrouped, Bool.and_eq_true] at h
    obtain ⟨⟨⟨ha, hb⟩, hleft⟩, -⟩ := h
    rw [Phrase.isLegible, iha ha, ihb hb, Bool.and_true, Bool.true_and, Bool.not_eq_true',
      Bool.and_eq_false_imp]
    intro hnumber
    cases l with
    | call x =>
      simp only [Link.admitsLeft, Bool.and_eq_true, decide_eq_true_eq, Bool.not_eq_true'] at hleft
      rw [endsInNumber_eq_isNumber hleft.1, hleft.2] at hnumber
      cases hnumber
    | _ => simp [Link.between]

end Legible

section Parsing

variable {a : Phrase}

-- The text of an expression is read as that expression exactly if no parentheses are missing in it,
-- and then as no other one.
theorem parses_text_iff (h : a.isWhole) :
    (Parses a.text a.ungrouped ↔ a.isGrouped) ∧
      (a.isGrouped → ∀ t, Parses a.text t ↔ t = a.ungrouped) := by
  obtain ⟨h, hlevel⟩ := Bool.and_eq_true_iff.1 h
  have hself (hgrouped : a.isGrouped) : Parses a.text a.ungrouped := by
    refine ⟨a, ?_, hgrouped, of_decide_eq_true hlevel, rfl⟩
    rw [tokens?_text h, if_pos (isLegible_of_isGrouped hgrouped)]
  refine ⟨⟨?_, hself⟩, fun hgrouped t => ⟨?_, ?_⟩⟩
  · rintro ⟨b, htokens, hb, -, hungrouped⟩
    rw [tokens?_text h] at htokens
    split at htokens
    · rwa [eq_of_tokens_eq (Option.some.inj htokens) hungrouped.symm]
    · cases htokens
  · rintro ⟨b, htokens, hb, -, rfl⟩
    rw [tokens?_text h, if_pos (isLegible_of_isGrouped hgrouped)] at htokens
    rw [eq_of_isGrouped hgrouped hb (Option.some.inj htokens)]
  · rintro rfl
    exact hself hgrouped

end Parsing

end JvmLift.Source
