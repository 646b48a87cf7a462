import SimpleLR.Item.Basic
import Mathlib.Data.List.Lex
/-!
# Item-set keys are canonical

Items are ordered by left-hand side, then alternative, then dot; this is a strict total order,
since names and lists of names are ordered lexicographically by code point. The key of an item
list sorts its items without repeats in that order, so two lists have the same key exactly
when they hold the same items.

Stated without the comparison the code runs, the order is the lexicographic order on the triple
(left-hand side, alternative, dot), where a name precedes another when it does at the first
character by code point, or is a proper prefix of it, and alternatives compare symbol by
symbol (`Item.KeyLt`). The key is the one list that names the items in strictly increasing
order of it (`itemSetKey_sorted_enumeration`).
-/

namespace SimpleLR

namespace Item

theorem lt_iff {a b : Item} : a.lt b = true ↔
    a.lhs < b.lhs ∨ a.lhs = b.lhs ∧ (a.rhs < b.rhs ∨ a.rhs = b.rhs ∧ a.dot < b.dot) := by
  simp [lt]

theorem ext_fields {a b : Item} (h1 : a.lhs = b.lhs) (h2 : a.rhs = b.rhs) (h3 : a.dot = b.dot) :
    a = b := by
  cases a
  cases b
  simp_all

theorem lt_asymm {a b : Item} (h : a.lt b = true) : a.lt b = true ∧ ¬b.lt a = true := by
  refine ⟨h, fun h' => ?_⟩
  rw [lt_iff] at h h'
  rcases h with h | ⟨e, h⟩
  · rcases h' with h' | ⟨e', _⟩
    · exact String.lt_asymm h h'
    · exact String.lt_irrefl _ (e' ▸ h)
  · rcases h' with h' | ⟨_, h'⟩
    · exact String.lt_irrefl _ (e ▸ h')
    · rcases h with h | ⟨e2, h⟩
      · rcases h' with h' | ⟨e2', _⟩
        · exact List.lt_asymm h h'
        · exact List.lt_irrefl _ (e2' ▸ h)
      · rcases h' with h' | ⟨_, h'⟩
        · exact List.lt_irrefl _ (e2 ▸ h')
        · omega

theorem lt_trans {a b c : Item} (hab : a.lt b = true) (hbc : b.lt c = true) : a.lt c = true := by
  rw [lt_iff] at hab hbc ⊢
  rcases hab with h1 | ⟨e1, h1⟩ <;> rcases hbc with h2 | ⟨e2, h2⟩
  · exact .inl (String.lt_trans h1 h2)
  · exact .inl (e2 ▸ h1)
  · exact .inl (e1 ▸ h2)
  · refine .inr ⟨e1.trans e2, ?_⟩
    rcases h1 with h1 | ⟨f1, h1⟩ <;> rcases h2 with h2 | ⟨f2, h2⟩
    · exact .inl (List.lt_trans h1 h2)
    · exact .inl (f2 ▸ h1)
    · exact .inl (f1 ▸ h2)
    · exact .inr ⟨f1.trans f2, by omega⟩

theorem eq_of_not_lt {a b : Item} (hab : ¬a.lt b = true) (hba : ¬b.lt a = true) : a = b := by
  rw [lt_iff] at hab hba
  have hl : a.lhs = b.lhs :=
    Std.Trichotomous.trichotomous (r := (· < ·)) _ _ (fun h => hab (.inl h)) (fun h => hba (.inl h))
  have hr : a.rhs = b.rhs :=
    Std.Trichotomous.trichotomous (r := (· < ·)) _ _ (fun h => hab (.inr ⟨hl, .inl h⟩))
      (fun h => hba (.inr ⟨hl.symm, .inl h⟩))
  have hd : a.dot = b.dot := by
    have h1 : ¬a.dot < b.dot := fun h => hab (.inr ⟨hl, .inr ⟨hr, h⟩⟩)
    have h2 : ¬b.dot < a.dot := fun h => hba (.inr ⟨hl.symm, .inr ⟨hr.symm, h⟩⟩)
    omega
  exact ext_fields hl hr hd

end Item

/-- The order in which a key lists its items: `a` may stand before `b` unless `b < a`. -/
private def keyOrder (a b : Item) : Bool := !Item.lt b a

private theorem keyOrder_total (a b : Item) : (keyOrder a b || keyOrder b a) = true := by
  cases h : Item.lt b a
  · simp [keyOrder, h]
  · simp [keyOrder, (Item.lt_asymm h).2]

private theorem keyOrder_trans (a b c : Item) (hab : keyOrder a b = true)
    (hbc : keyOrder b c = true) : keyOrder a c = true := by
  simp only [keyOrder, Bool.not_eq_eq_eq_not, Bool.not_true] at hab hbc ⊢
  cases hca : Item.lt c a
  · rfl
  · -- `c < a` while neither `b < a` nor `c < b`: compare `a` and `b`
    by_cases hba' : Item.lt a b = true
    · rw [Item.lt_trans hca hba'] at hbc
      cases hbc
    · have heq := Item.eq_of_not_lt hba' (by simp [hab])
      subst heq
      rw [hca] at hbc
      cases hbc

theorem nodup_eraseDups {α : Type} [BEq α] [LawfulBEq α] (l : List α) : l.eraseDups.Nodup := by
  induction h : l.length using Nat.strongRecOn generalizing l with
  | ind n ih =>
    cases l with
    | nil => simp
    | cons a as =>
      rw [List.eraseDups_cons, List.nodup_cons]
      have hlen : (as.filter fun b => !b == a).length < n := by
        have := List.length_filter_le (fun b => !b == a) as
        simp only [List.length_cons] at h
        omega
      refine ⟨?_, ih _ hlen _ rfl⟩
      simp [List.mem_eraseDups]

theorem eraseDups_eq_self {α : Type} [BEq α] [LawfulBEq α] {l : List α} (h : l.Nodup) :
    l.eraseDups = l := by
  induction l with
  | nil => rfl
  | cons a as ih =>
    obtain ⟨ha, has⟩ := List.nodup_cons.1 h
    have hkeep : as.filter (fun b => !b == a) = as := by
      apply List.filter_eq_self.2
      intro b hb
      have hne : b ≠ a := fun hba => ha (hba ▸ hb)
      simpa using hne
    rw [List.eraseDups_cons, hkeep, ih has]

@[simp] theorem mem_itemSetKey {x : Item} {items : List Item} :
    x ∈ itemSetKey items ↔ x ∈ items := by
  simp [itemSetKey, (List.mergeSort_perm _ _).mem_iff]

theorem nodup_itemSetKey (items : List Item) : (itemSetKey items).Nodup :=
  (List.mergeSort_perm _ _).nodup_iff.2 (nodup_eraseDups items)

private theorem lt_of_keyOrder {a b : Item} (hab : keyOrder a b = true) (hne : a ≠ b) :
    a.lt b = true := by
  by_contra h
  exact hne (Item.eq_of_not_lt h (by simpa [keyOrder] using hab))

theorem pairwise_lt_itemSetKey (items : List Item) :
    (itemSetKey items).Pairwise fun a b => a.lt b = true :=
  ((List.pairwise_mergeSort keyOrder_trans keyOrder_total items.eraseDups).and
    (nodup_itemSetKey items)).imp fun ⟨hab, hne⟩ => lt_of_keyOrder hab hne

theorem eq_itemSetKey_of_pairwise_lt {items l : List Item}
    (hl : l.Pairwise fun a b => a.lt b = true) (hmem : ∀ x, x ∈ l ↔ x ∈ items) :
    l = itemSetKey items := by
  have hnodup : l.Nodup := hl.imp fun hab heq => by
    subst heq
    exact (Item.lt_asymm hab).2 hab
  have hperm : l.Perm (itemSetKey items) := by
    rw [List.perm_ext_iff_of_nodup hnodup (nodup_itemSetKey items)]
    intro x
    rw [hmem, mem_itemSetKey]
  -- two strictly increasing lists of the same items agree: no two items precede each other
  exact hperm.eq_of_pairwise (fun _ _ _ _ hab hba => absurd hba (Item.lt_asymm hab).2) hl
    (pairwise_lt_itemSetKey items)

theorem itemSetKey_eq_iff {a b : List Item} :
    itemSetKey a = itemSetKey b ↔ ∀ x, x ∈ a ↔ x ∈ b := by
  constructor
  · intro h x
    rw [← mem_itemSetKey, h, mem_itemSetKey]
  · intro h
    exact eq_itemSetKey_of_pairwise_lt (pairwise_lt_itemSetKey a) fun x => by
      rw [mem_itemSetKey, h x]

theorem sameItemSet_iff {a b : List Item} : sameItemSet a b = true ↔ ∀ x, x ∈ a ↔ x ∈ b := by
  rw [sameItemSet, beq_iff_eq, itemSetKey_eq_iff]

/-! ## The order of the key, by code point -/

/-- Names in order of code points: the first character where they differ decides, by its code
point, and a proper prefix comes first. -/
def CodePointLt (s t : Symbol) : Prop :=
  List.Lex (fun c d => c.toNat < d.toNat) s.toList t.toList

/-- The order of the items of a key: lexicographic on left-hand side, alternative and dot, names
by code point and alternatives symbol by symbol. -/
def Item.KeyLt (a b : Item) : Prop :=
  Prod.Lex CodePointLt (Prod.Lex (List.Lex CodePointLt) (· < ·))
    (a.lhs, a.rhs, a.dot) (b.lhs, b.rhs, b.dot)

theorem symbol_lt_iff {s t : Symbol} : s < t ↔ CodePointLt s t :=
  ⟨List.Lex.imp (fun _ _ h => UInt32.lt_iff_toNat_lt.1 h) _ _,
    List.Lex.imp (fun _ _ h => UInt32.lt_iff_toNat_lt.2 h) _ _⟩

theorem symbols_lt_iff {r r' : List Symbol} : r < r' ↔ List.Lex CodePointLt r r' :=
  ⟨List.Lex.imp (fun _ _ => symbol_lt_iff.1) _ _, List.Lex.imp (fun _ _ => symbol_lt_iff.2) _ _⟩

theorem Item.lt_iff_keyLt {a b : Item} : a.lt b = true ↔ a.KeyLt b := by
  simp only [Item.lt_iff, Item.KeyLt, Prod.lex_def, symbol_lt_iff, symbols_lt_iff]

/-- The key of an item list is the strictly increasing enumeration of its items in the
lexicographic order of their fields, names by code point; so two item lists have the same key
exactly when they hold the same items. -/
theorem itemSetKey_sorted_enumeration (a b : List Item) :
    (itemSetKey a = itemSetKey b ↔ ∀ x, x ∈ a ↔ x ∈ b) ∧
      ∀ l : List Item, itemSetKey a = l ↔ l.Pairwise Item.KeyLt ∧ ∀ x, x ∈ l ↔ x ∈ a := by
  refine ⟨itemSetKey_eq_iff, fun l => ⟨?_, ?_⟩⟩
  · rintro rfl
    exact ⟨(pairwise_lt_itemSetKey a).imp Item.lt_iff_keyLt.1, fun x => mem_itemSetKey⟩
  · rintro ⟨hl, hmem⟩
    exact (eq_itemSetKey_of_pairwise_lt (hl.imp Item.lt_iff_keyLt.2) hmem).symm

end SimpleLR
