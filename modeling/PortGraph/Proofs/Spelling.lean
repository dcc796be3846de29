import PortGraph.Address

/-!
# Texts that can be read back

Identifiers and addresses are spelled with decimal numbers, which have no fixed length: where a
number ends is told by the next character, which is not a digit (`digits_append_inj`). So an address
can be read off the beginning of any text that begins with it (`Address.text_append_inj`), and
different addresses have different texts.

A text that consists of lines can be taken apart into these if none of them contains a line break
(`unlines_inj`).
-/

namespace PortGraph

namespace Text

/-! ## Separators -/

section

variable {α : Type} {a b : α} {x y x' y' : List α}

/-- Two places of one list are the same, or each element is on its side of the other. -/
theorem append_cons_cases (h : x ++ a :: x' = y ++ b :: y') :
    (x = y ∧ a = b ∧ x' = y') ∨ (a ∈ y ∧ b ∈ x') ∨ (b ∈ x ∧ a ∈ y') := by
  rcases List.append_eq_append_iff.mp h with ⟨rest, rfl, hrest⟩ | ⟨rest, rfl, hrest⟩
  · cases rest with
    | nil =>
      cases hrest
      exact .inl ⟨(List.append_nil x).symm, rfl, rfl⟩
    | cons c rest =>
      cases hrest
      exact .inr (.inl ⟨List.mem_append_right x (.head rest),
        List.mem_append_right rest (.head y')⟩)
  · cases rest with
    | nil =>
      cases hrest
      exact .inl ⟨List.append_nil y, rfl, rfl⟩
    | cons c rest =>
      cases hrest
      exact .inr (.inr ⟨List.mem_append_right y (.head rest),
        List.mem_append_right rest (.head x')⟩)

/-- A list is taken apart at the first place where one of two elements stands. -/
theorem append_cons_inj_first (hx : b ∉ x) (hy : a ∉ y) (h : x ++ a :: x' = y ++ b :: y') :
    x = y ∧ a = b ∧ x' = y' := by
  rcases append_cons_cases h with heq | ⟨ha, _⟩ | ⟨hb, _⟩
  · exact heq
  · exact absurd ha hy
  · exact absurd hb hx

/-- A list is taken apart at the last place where one of two elements stands. -/
theorem append_cons_inj_last (hx : b ∉ x') (hy : a ∉ y') (h : x ++ a :: x' = y ++ b :: y') :
    x = y ∧ a = b ∧ x' = y' := by
  rcases append_cons_cases h with heq | ⟨_, hb⟩ | ⟨_, ha⟩
  · exact heq
  · exact absurd hb hx
  · exact absurd ha hy

end

/-! ## Numbers -/

/-- The decimal digits of a number. -/
def digits (n : Nat) : List Char := (toString n).toList

/-- They are digits. -/
theorem not_mem_digits {c : Char} (hc : c.isDigit = false) (n : Nat) : c ∉ digits n := by
  intro hmem
  rw [digits, Nat.toString_eq_repr, Nat.toList_repr] at hmem
  have hdigit := Nat.isDigit_of_mem_toDigits (by decide) (by decide) hmem
  rw [hc] at hdigit
  cases hdigit

/-- Different numbers have different digits. -/
theorem digits_inj {n m : Nat} (h : digits n = digits m) : n = m := by
  rw [digits, digits, Nat.toString_eq_repr, Nat.toString_eq_repr, Nat.toList_repr,
    Nat.toList_repr] at h
  rw [← Nat.ofDigitChars_ten_toDigits (n := n), h, Nat.ofDigitChars_ten_toDigits]

/-- A number ends where there is no more digit. -/
theorem digits_append_inj {n m : Nat} {c d : Char} {r s : List Char} (hc : c.isDigit = false)
    (hd : d.isDigit = false) (h : digits n ++ c :: r = digits m ++ d :: s) :
    n = m ∧ c = d ∧ r = s := by
  obtain ⟨hdigits, hrest⟩ := append_cons_inj_first (not_mem_digits hd n) (not_mem_digits hc m) h
  exact ⟨digits_inj hdigits, hrest⟩

/-! ## Lines -/

/-- A text made of lines, each of which is ended by a line break. -/
def unlines (lines : List String) : String := String.join (lines.map (· ++ "\n"))

theorem unlines_cons (l : String) (ls : List String) :
    unlines (l :: ls) = l ++ "\n" ++ unlines ls := by
  rw [unlines, List.map_cons, String.join_cons]
  rfl

theorem toList_unlines_cons (l : String) (ls : List String) :
    (unlines (l :: ls)).toList = l.toList ++ '\n' :: (unlines ls).toList := by
  rw [unlines_cons, String.toList_append, String.toList_append, List.append_assoc]
  rfl

/-- The lines of several texts make up the texts one after the other. -/
theorem unlines_flatMap {α : Type} (f : α → List String) (as : List α) :
    unlines (as.flatMap f) = String.join (as.map fun a => unlines (f a)) := by
  apply String.toList_injective
  simp only [unlines, String.toList_join, List.flatMap_map, List.flatMap_assoc]

/-- Lines without line breaks are known by their text. -/
theorem unlines_inj {ls ms : List String} (hls : ∀ l ∈ ls, '\n' ∉ l.toList)
    (hms : ∀ m ∈ ms, '\n' ∉ m.toList) (h : unlines ls = unlines ms) : ls = ms := by
  replace h := congrArg String.toList h
  induction ls generalizing ms with
  | nil =>
    cases ms with
    | nil => rfl
    | cons m ms =>
      rw [toList_unlines_cons] at h
      exact absurd h.symm (List.append_ne_nil_of_right_ne_nil _ (List.cons_ne_nil _ _))
  | cons l ls ih =>
    cases ms with
    | nil =>
      rw [toList_unlines_cons] at h
      exact absurd h (List.append_ne_nil_of_right_ne_nil _ (List.cons_ne_nil _ _))
    | cons m ms =>
      rw [toList_unlines_cons, toList_unlines_cons] at h
      obtain ⟨hl, _, hrest⟩ := append_cons_inj_first (hls l (.head _)) (hms m (.head _)) h
      rw [String.toList_inj.mp hl,
        ih (fun k hk => hls k (.tail _ hk)) (fun k hk => hms k (.tail _ hk)) hrest]

end Text

/-! ## Addresses -/

namespace Direction

/-- Neither of the words for the two directions begins with the other. -/
theorem text_append_inj {d e : Direction} {r s : List Char}
    (h : d.text.toList ++ r = e.text.toList ++ s) : d = e ∧ r = s := by
  cases d <;> cases e <;> simp_all [text]

end Direction

namespace Address

/-- The characters of the text of an address. -/
theorem toList_text (a : Address) :
    a.text.toList = 'n' :: (Text.digits a.node.val ++
      '.' :: (a.direction.text.toList ++ '[' :: (Text.digits a.offset ++ [']']))) := by
  simp [text, NodeId.text, Text.digits]

/-- Where a text begins with an address, the address ends with its bracket. -/
theorem text_append_inj {a b : Address} {r s : List Char}
    (h : a.text.toList ++ r = b.text.toList ++ s) : a = b ∧ r = s := by
  obtain ⟨node, d, offset⟩ := a
  obtain ⟨node', d', offset'⟩ := b
  simp only [toList_text, List.cons_append, List.append_assoc, List.cons.injEq, true_and,
    List.nil_append] at h
  obtain ⟨hnode, _, hplace⟩ := Text.digits_append_inj (by decide) (by decide) h
  obtain ⟨rfl, hoffset⟩ := Direction.text_append_inj hplace
  obtain ⟨rfl, _, rfl⟩ := Text.digits_append_inj (by decide) (by decide) (List.cons.inj hoffset).2
  rw [NodeId.ext hnode]
  exact ⟨rfl, rfl⟩

/-- Different addresses have different texts. -/
theorem text_inj {a b : Address} (h : a.text = b.text) : a = b := by
  have hchars : a.text.toList ++ [] = b.text.toList ++ [] := by rw [h]
  exact (text_append_inj hchars).1

end Address

end PortGraph
