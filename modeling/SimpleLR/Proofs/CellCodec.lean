import SimpleLR.Table.Action
/-!
# Reading a cell undoes writing it

Every action whose number has at most `digitLimit` digits is written as a cell that reads back
as the action: empty for no action, `acc` for accept, the kind letter and the decimal digits of
the number for a shift or a reduce. So reading never fails on such a cell, and writing what was
read gives the cell back. A longer number, of a shift or of a reduce, is refused by its length
on both sides (`decodeCell_encodeAction`); the least of them is the shift to state ten to the
power `digitLimit` (`encodeAction_shift_tenPow`).
-/

namespace SimpleLR

theorem encodeAction_some {x : Action} (h : x.arg < Nat.pow 10 digitLimit) :
    encodeAction (some x) = .ok x.text := by
  have hlen := length_toDigits_le_digitLimit.2 h
  simp only [encodeAction, writeAction, Action.text, Int.natAbs_natCast]
  rw [if_neg (fun hc => Nat.lt_irrefl _ (Nat.lt_of_lt_of_le hc.2 hlen))]

theorem decodeCell_text {x : Action} (h : x.arg < Nat.pow 10 digitLimit) :
    decodeCell (.text x.text) = .ok (some x) := by
  match x, h with
  | .accept, _ => rfl
  | .shift n, h =>
    simp only [decodeCell, Action.text, Action.kind, Action.arg]
    rw [toList_actionText "s" n (by decide)]
    exact decodeChars_digits 's' (.inl rfl) n (length_toDigits_le_digitLimit.2 h)
  | .reduce n, h =>
    simp only [decodeCell, Action.text, Action.kind, Action.arg]
    rw [toList_actionText "r" n (by decide)]
    exact decodeChars_digits 'r' (.inr rfl) n (length_toDigits_le_digitLimit.2 h)

theorem digitLimit_lt_length_toDigits {n : Nat} (hn : Nat.pow 10 digitLimit ≤ n) :
    digitLimit < (Nat.toDigits 10 n).length :=
  Nat.lt_of_not_le fun hle => Nat.not_le_of_lt (length_toDigits_le_digitLimit.1 hle) hn

theorem encodeAction_of_length {x : Action} (hx : digitLimit < (Nat.toDigits 10 x.arg).length) :
    encodeAction (some x) = .error .numberTooLong := by
  have hkind : x.kind ≠ "acc" := by
    cases x with
    | accept => exact absurd hx (by decide)
    | shift _ | reduce _ => simp [Action.kind]
  simp only [encodeAction, writeAction, Int.natAbs_natCast]
  exact if_pos ⟨hkind, hx⟩

theorem decodeCell_text_of_length {x : Action}
    (hx : digitLimit < (Nat.toDigits 10 x.arg).length) :
    decodeCell (.text x.text) = .error (.tooManyDigits (Nat.toDigits 10 x.arg).length) := by
  match x, hx with
  | .accept, hx => exact absurd hx (by decide)
  | .shift n, hx =>
    simp only [decodeCell, Action.text, Action.kind, Action.arg]
    rw [toList_actionText "s" n (by decide)]
    exact decodeChars_tooManyDigits 's' (.inl rfl) n hx
  | .reduce n, hx =>
    simp only [decodeCell, Action.text, Action.kind, Action.arg]
    rw [toList_actionText "r" n (by decide)]
    exact decodeChars_tooManyDigits 'r' (.inr rfl) n hx

theorem decodeCell_text_eq_some {x y : Action} (h : decodeCell (.text x.text) = .ok (some y)) :
    y = x := by
  by_cases hx : x.arg < Nat.pow 10 digitLimit
  · rw [decodeCell_text hx] at h
    cases h
    rfl
  · rw [decodeCell_text_of_length (digitLimit_lt_length_toDigits (Nat.le_of_not_lt hx))] at h
    cases h

/-- Every action whose number is below ten to the power `digitLimit` is written as a cell that
reads back as the action, and writing what was read gives the cell again; a shift or a reduce
whose number is ten to the power `digitLimit` or more can be neither written nor read. -/
theorem decodeCell_encodeAction :
    (∀ a : Option Action, (∀ x ∈ a, x.arg < Nat.pow 10 digitLimit) →
      ∃ s, encodeAction a = .ok s ∧ decodeCell (.text s) = .ok a ∧
        (decodeCell (.text s) >>= encodeAction) = .ok s) ∧
      ∀ x : Action, Nat.pow 10 digitLimit ≤ x.arg →
        encodeAction (some x) = .error .numberTooLong ∧
          decodeCell (.text x.text) = .error (.tooManyDigits (Nat.toDigits 10 x.arg).length) := by
  refine ⟨fun a h => ?_, fun x hx => ?_⟩
  · match a, h with
    | none, _ => exact ⟨"", rfl, rfl, rfl⟩
    | some x, h =>
      have hx := h x rfl
      refine ⟨x.text, encodeAction_some hx, decodeCell_text hx, ?_⟩
      rw [decodeCell_text hx]
      exact encodeAction_some hx
  · have hlen := digitLimit_lt_length_toDigits hx
    exact ⟨encodeAction_of_length hlen, decodeCell_text_of_length hlen⟩

/-- The largest rule number that a cell can carry is written and read back. -/
theorem decodeCell_encodeAction_largest :
    (∀ x ∈ some (Action.reduce (Nat.pow 10 digitLimit - 1)), x.arg < Nat.pow 10 digitLimit) ∧
      ∃ s, encodeAction (some (.reduce (Nat.pow 10 digitLimit - 1))) = .ok s ∧
        decodeCell (.text s) = .ok (some (.reduce (Nat.pow 10 digitLimit - 1))) := by
  have h : ∀ x ∈ some (Action.reduce (Nat.pow 10 digitLimit - 1)),
      x.arg < Nat.pow 10 digitLimit := by
    intro x hx
    cases hx
    apply Nat.sub_one_lt
    rw [← Nat.pos_iff_ne_zero, Nat.pow_eq, Nat.pow_pos_iff]
    exact .inl (by decide)
  obtain ⟨s, hs, hd, _⟩ := decodeCell_encodeAction.1 _ h
  exact ⟨h, s, hs, hd⟩

theorem length_toDigits_pow (k : Nat) : (Nat.toDigits 10 (Nat.pow 10 k)).length = k + 1 := by
  cases k with
  | zero => rfl
  | succ k =>
    have hle : (Nat.toDigits 10 (Nat.pow 10 (k + 1))).length ≤ k + 1 + 1 := by
      rw [length_toDigits_le_iff_lt_pow (Nat.succ_pos _), Nat.pow_eq, Nat.pow_eq]
      exact Nat.pow_lt_pow_succ (by decide)
    have hgt : ¬(Nat.toDigits 10 (Nat.pow 10 (k + 1))).length ≤ k + 1 := fun h =>
      Nat.lt_irrefl _ ((length_toDigits_le_iff_lt_pow (Nat.succ_pos _)).1 h)
    omega

/-- The shift to state ten to the power `digitLimit`, whose number has one digit too many, can
be neither written as a cell nor read from its digits. -/
theorem encodeAction_shift_tenPow :
    encodeAction (some (.shift (Nat.pow 10 digitLimit))) = .error .numberTooLong ∧
      decodeChars ('s' :: Nat.toDigits 10 (Nat.pow 10 digitLimit)) =
        .error (.tooManyDigits (digitLimit + 1)) := by
  have hlen : digitLimit < (Nat.toDigits 10 (Nat.pow 10 digitLimit)).length := by
    rw [length_toDigits_pow]
    omega
  have harg : digitLimit < (Nat.toDigits 10 (Action.shift (Nat.pow 10 digitLimit)).arg).length := by
    simp only [Action.arg]
    exact hlen
  refine ⟨encodeAction_of_length harg, ?_⟩
  rw [decodeChars_tooManyDigits 's' (.inl rfl) _ hlen, length_toDigits_pow]

end SimpleLR
