import BuildWatch.Proofs.Json.Reader

namespace BuildWatch.Json

variable {bs text text' before after payload : Bytes} {v v' : Value} {items : List Value}

theorem Spelled.exists_list {depth : Nat} (h : Spelled depth (0x5b :: text) v) :
    ∃ d items, depth = d + 1 ∧ Enclosed (Spelled d) 0x5b 0x5d (0x5b :: text) items ∧
      v = .array items := by
  have hscalar : ¬Scalar (0x5b :: text) v := by
    intro h
    obtain ⟨b, more, he, -, hne, -⟩ := h.exists_cons
    exact hne (List.cons.inj he).1.symm
  cases depth with
  | zero => exact absurd h hscalar
  | succ depth =>
    rcases h with h | ⟨items, h, rfl⟩ | ⟨members, h, rfl⟩
    · exact absurd h hscalar
    · exact ⟨depth, items, rfl, h, rfl⟩
    · obtain ⟨more, he⟩ := h.start
      cases he

theorem Spelled.exists_brackets {depth : Nat} (h : Spelled depth text (.array items)) :
    ∃ inner, text = 0x5b :: (inner ++ [0x5d]) := by
  have hscalar : ¬Scalar text (.array items) := fun h => h.ne_nested.1 items rfl
  cases depth with
  | zero => exact absurd h hscalar
  | succ depth =>
    rcases h with h | ⟨_, h, _⟩ | ⟨_, _, h⟩
    · exact absurd h hscalar
    · cases h <;> exact ⟨_, rfl⟩
    · cases h

theorem value_of_bracket {depth room : Nat} (h : Spelled depth (0x5b :: text) v)
    (hroom : (0x5b :: text).length ≤ room) (hbefore : Blank before) (bs : Bytes) :
    value room depth (before ++ (0x5b :: text ++ bs)) = .ok (v, bs) := by
  obtain ⟨d, items, rfl, hlist, rfl⟩ := h.exists_list
  exact value_list (reads_value room d) hbefore hlist hroom

theorem eq_of_bracket {depth : Nat} (h : Spelled depth (0x5b :: text) v)
    (h' : Spelled depth (0x5b :: text') v') {bs' : Bytes}
    (he : 0x5b :: text ++ bs = 0x5b :: text' ++ bs') : bs = bs' := by
  have hread := value_of_bracket h (Nat.le_max_left _ (0x5b :: text').length) blank_nil bs
  have hread' := value_of_bracket h' (Nat.le_max_right (0x5b :: text).length _) blank_nil bs'
  rw [List.nil_append, he] at hread
  exact (Prod.mk.inj (Except.ok.inj (hread.symm.trans hread'))).2

theorem IsText.exists_bracket (h : IsText payload (.array items)) :
    ∃ before inner after, Blank before ∧ Blank after ∧
      Spelled maxDepth (0x5b :: (inner ++ [0x5d])) (.array items) ∧
      payload = before ++ 0x5b :: inner ++ 0x5d :: after := by
  obtain ⟨before, text, after, hbefore, htext, hafter, rfl⟩ := h
  obtain ⟨inner, rfl⟩ := htext.exists_brackets
  exact ⟨before, inner, after, hbefore, hafter, htext, by simp⟩

theorem IsText.bracket_of_append (h : IsText payload v) (hbefore : Blank before) {more : Bytes}
    (he : payload ++ more = before ++ 0x5b :: bs) :
    ∃ text after', Spelled maxDepth (0x5b :: text) v ∧ Blank after' ∧
      skipBlank (payload ++ more) = 0x5b :: text ++ (after' ++ more) := by
  obtain ⟨before', text, after', hbefore', htext, hafter', rfl⟩ := h
  obtain ⟨b, text, rfl, hb, -⟩ := htext.start
  have hskip : skipBlank (before' ++ (b :: text ++ after') ++ more) =
      b :: (text ++ (after' ++ more)) := by
    rw [List.append_assoc, skipBlank_append hbefore', List.cons_append, List.cons_append,
      skipBlank_cons hb, List.append_assoc]
  have hskip' : skipBlank (before' ++ (b :: text ++ after') ++ more) = 0x5b :: bs := by
    rw [he, skipBlank_append hbefore]
    rfl
  obtain ⟨rfl, -⟩ := List.cons.inj (hskip.symm.trans hskip')
  exact ⟨text, after', htext, hafter', hskip⟩

/-- Wherever the text of a list is cut before its closing bracket, no text is left. -/
theorem not_isText_of_cut {inner cut : Bytes} (hbefore : Blank before)
    (h : Spelled maxDepth (0x5b :: (inner ++ [0x5d])) (.array items))
    (hcut : cut <+: before ++ 0x5b :: inner) (v : Value) : ¬IsText cut v := by
  obtain ⟨more, hmore⟩ := hcut
  intro htext
  have he : cut ++ (more ++ [0x5d]) = before ++ 0x5b :: (inner ++ [0x5d]) := by
    rw [← List.append_assoc, hmore]
    simp
  obtain ⟨text, after', hspelled, -, hskip⟩ := htext.bracket_of_append hbefore he
  have hskip' : skipBlank (cut ++ (more ++ [0x5d])) = 0x5b :: (inner ++ [0x5d]) ++ [] := by
    rw [he, skipBlank_append hbefore, List.append_nil]
    rfl
  have hafter := eq_of_bracket hspelled h (hskip.symm.trans hskip')
  simp at hafter

theorem blank_of_isText_append {inner more : Bytes} (hbefore : Blank before)
    (h : Spelled maxDepth (0x5b :: (inner ++ [0x5d])) (.array items)) (v : Value)
    (htext : IsText (before ++ 0x5b :: inner ++ 0x5d :: after ++ more) v) : Blank more := by
  have happ : before ++ 0x5b :: inner ++ 0x5d :: after ++ more ++ [] =
      before ++ 0x5b :: (inner ++ 0x5d :: (after ++ more)) := by simp
  obtain ⟨text, after', hspelled, hafter, hskip⟩ := htext.bracket_of_append hbefore happ
  have hskip' : skipBlank (before ++ 0x5b :: inner ++ 0x5d :: after ++ more ++ []) =
      0x5b :: (inner ++ [0x5d]) ++ (after ++ more) := by
    rw [List.append_nil, List.append_assoc, List.append_assoc, skipBlank_append hbefore]
    simpa using skipBlank_cons rfl _
  have he := eq_of_bracket hspelled h (hskip.symm.trans hskip')
  rw [List.append_nil] at he
  exact fun b hb => hafter b (he ▸ List.mem_append_right after hb)

theorem IsText.surround (h : IsText payload v) (hbefore : Blank before) (hafter : Blank after) :
    IsText (before ++ payload ++ after) v := by
  obtain ⟨before', text, after', hbefore', htext, hafter', rfl⟩ := h
  refine ⟨before ++ before', text, after' ++ after, ?_, htext, ?_, by simp⟩
  · exact fun b hb => (List.mem_append.mp hb).elim (hbefore b) (hbefore' b)
  · exact fun b hb => (List.mem_append.mp hb).elim (hafter' b) (hafter b)

end BuildWatch.Json
