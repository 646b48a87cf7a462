import SimpleLR.Proofs.ScanLayout
import SimpleLR.Proofs.ReadShape
/-!
# Blank lines and the words of the command line

Two notions of blank meet in a grammar text. The scanner separates tokens at Unicode
`White_Space`; skipping blank lines, trimming, and splitting the token text of the command line
use `isBlank`, which adds the four information separators U+001C–U+001F. They agree away from
those four characters: a line the scanner finds no token in is blank, and a line without an
information separator is blank only if the scanner finds no token in it; a name splits into
itself exactly when it holds no separator, so terminals without separators, joined by spaces,
split back into themselves (`blank_notions_agree_without_separators`). A separator breaks both:
the line `U+001C` is blank yet holds a name, and the terminal `a U+001C b` splits in two
(`separator_splits_terminal`).
-/

namespace SimpleLR

open SimpleLR.Text

/-! ## Words -/

namespace Text

theorem wordsFrom_append_of_nonblank {w : List Char} (hw : ∀ c ∈ w, isBlank c = false)
    (rest run : List Char) : wordsFrom (w ++ rest) run = wordsFrom rest (w.reverse ++ run) := by
  induction w generalizing run with
  | nil => rfl
  | cons c w ih =>
    rw [List.cons_append, wordsFrom, if_neg (by simp [hw c List.mem_cons_self]),
      ih (fun d hd => hw d (List.mem_cons_of_mem _ hd))]
    simp

theorem words_of_nonblank {w : List Char} (hne : w ≠ []) (hw : ∀ c ∈ w, isBlank c = false) :
    words w = [w] := by
  have h := wordsFrom_append_of_nonblank hw [] []
  rw [List.append_nil] at h
  rw [words, h, wordsFrom]
  simp [hne]

theorem words_append_blank {w : List Char} (hne : w ≠ []) (hw : ∀ c ∈ w, isBlank c = false)
    {b : Char} (hb : isBlank b = true) (rest : List Char) :
    words (w ++ b :: rest) = w :: words rest := by
  rw [words, wordsFrom_append_of_nonblank hw, wordsFrom, if_pos hb]
  simp [hne, words]

theorem words_intercalate {ws : List (List Char)} (hws : ∀ w ∈ ws, w ≠ [] ∧ ∀ c ∈ w, isBlank c = false)
    {b : Char} (hb : isBlank b = true) : words ([b].intercalate ws) = ws := by
  induction ws with
  | nil => rfl
  | cons w ws ih =>
    have hw := hws w List.mem_cons_self
    have hrest : ∀ v ∈ ws, v ≠ [] ∧ ∀ c ∈ v, isBlank c = false :=
      fun v hv => hws v (List.mem_cons_of_mem _ hv)
    cases ws with
    | nil => simpa using words_of_nonblank hw.1 hw.2
    | cons v vs =>
      rw [List.intercalate_cons_cons, List.append_assoc, List.singleton_append,
        words_append_blank hw.1 hw.2 hb, ih hrest]

theorem nonblank_of_mem_wordsFrom {l run : List Char} (hrun : ∀ c ∈ run, isBlank c = false) :
    ∀ w ∈ wordsFrom l run, ∀ c ∈ w, isBlank c = false := by
  induction l generalizing run with
  | nil =>
    intro w hw c hc
    unfold wordsFrom at hw
    split at hw
    · cases hw
    · rw [List.mem_singleton] at hw
      subst hw
      exact hrun c (List.mem_reverse.1 hc)
  | cons d l ih =>
    intro w hw c hc
    unfold wordsFrom at hw
    split at hw
    · split at hw
      · exact ih (by simp) w hw c hc
      · rcases List.mem_cons.1 hw with rfl | hw
        · exact hrun c (List.mem_reverse.1 hc)
        · exact ih (by simp) w hw c hc
    · rename_i hd
      refine ih (fun e he => ?_) w hw c hc
      rcases List.mem_cons.1 he with rfl | he
      · simpa using hd
      · exact hrun e he

theorem words_eq_singleton_iff {w : List Char} (hne : w ≠ []) :
    words w = [w] ↔ ∀ c ∈ w, isBlank c = false := by
  refine ⟨fun h c hc => ?_, words_of_nonblank hne⟩
  have hmem : w ∈ words w := by simp [h]
  exact nonblank_of_mem_wordsFrom (by simp) w hmem c hc

end Text

/-! ## Blank lines -/

namespace Token

theorem withPending_ne_nil (q : Pending) (col : Nat) (ts : List Token) : withPending q col ts ≠ [] := by
  cases ts with
  | nil => simp [withPending, flush]
  | cons t ts =>
    simp only [withPending, flush]
    split <;> simp

theorem scan_eq_nil_iff (line : List Char) : scan line = [] ↔ ∀ c ∈ line, isWhiteSpace c = true := by
  induction line using line_induction with
  | nil => exact iff_of_true rfl (by simp)
  | blank c r hws ih => simp [scan_cons_blank hws, ih, hws]
  | arrow r ih => simp [scan_arrow, show isWhiteSpace '-' = false by decide]
  | bar r ih => simp [scan_bar, show isWhiteSpace '|' = false by decide]
  | name c r hws hbar harrow ih =>
    rw [scan_cons_name hws hbar harrow]
    simp [withPending_ne_nil, hws]

end Token

theorem isBlank_eq_false {c : Char} (hws : isWhiteSpace c = false)
    (hsep : inRanges separators c.toNat = false) : isBlank c = false := by
  simp [isBlank, hws, hsep]

/-- Blank lines and the scanner, and words and names, agree away from the information
separators: a line without tokens is blank, and without separators a blank line has no tokens;
a name is its only word exactly when it holds no separator; so terminals without separators,
joined by spaces as on the command line, split back into themselves. -/
theorem blank_notions_agree_without_separators (line : List Char) (ts : List Symbol) :
    (Token.scan line = [] → isBlankText line = true) ∧
    ((∀ c ∈ line, inRanges separators c.toNat = false) →
      (isBlankText line = true ↔ Token.scan line = [])) ∧
    (∀ t ∈ Token.scan line, t.kind = .name →
      (words t.text.toList = [t.text.toList] ↔
        ∀ c ∈ t.text.toList, inRanges separators c.toNat = false)) ∧
    ∀ {text : String} {g : Grammar}, Grammar.read text = .ok g →
      (∀ t ∈ ts, t ∈ g.vocabulary.terminals ∧ ∀ c ∈ t.toList, inRanges separators c.toNat = false) →
      (words (" ".intercalate ts).toList).map String.ofList = ts := by
  refine ⟨fun h => ?_, fun hsep => ?_, fun t ht hname => ?_, fun {text g} hg hts => ?_⟩
  · simp only [isBlankText, List.all_eq_true]
    exact fun c hc => isBlank_of_isWhiteSpace ((Token.scan_eq_nil_iff line).1 h c hc)
  · rw [Token.scan_eq_nil_iff]
    simp only [isBlankText, List.all_eq_true]
    refine ⟨fun h c hc => ?_, fun h c hc => isBlank_of_isWhiteSpace (h c hc)⟩
    have := h c hc
    simpa [isBlank, hsep c hc] using this
  · -- a name is not empty and holds no white space, so only a separator can split it
    obtain ⟨hne, hchars, -⟩ := Token.isName_of_mem_scan ht hname
    rw [words_eq_singleton_iff hne]
    refine ⟨fun h c hc => ?_, fun h c hc => isBlank_eq_false (hchars c hc).1 (h c hc)⟩
    have hblank := h c hc
    simp only [isBlank, Bool.or_eq_false_iff] at hblank
    exact hblank.2
  · have hname : ∀ t ∈ ts, t.toList ≠ [] ∧ ∀ c ∈ t.toList, isBlank c = false := by
      intro t ht
      obtain ⟨hterm, hsep⟩ := hts t ht
      obtain ⟨⟨r, hr, hmem⟩, -, heps, -⟩ := Grammar.mem_terminals.1 hterm
      rcases (Grammar.read_rule_shape hg r hr).2.2 with hrhs | ⟨-, hall⟩
      · rw [hrhs, List.mem_singleton] at hmem
        exact absurd hmem heps
      · obtain ⟨hne, hchars, -⟩ := (hall t hmem).2.2
        exact ⟨hne, fun c hc => isBlank_eq_false (hchars c hc).1 (hsep c hc)⟩
    rw [String.toList_intercalate, show " ".toList = [' '] from rfl,
      words_intercalate (by simpa using hname) (by decide)]
    simp

/-- The information separator U+001C is blank, yet the scanner reads it as a name; and the
terminal `a U+001C b` of `S -> a U+001C b` splits into the words `a` and `b`. -/
theorem separator_splits_terminal :
    isBlankText ['\x1c'] = true ∧ Token.scan ['\x1c'] = [⟨.name, "\x1c", 1⟩] ∧
      (Grammar.read "S -> a\x1cb").map (·.vocabulary.terminals) = .ok ["a\x1cb"] ∧
      (words "a\x1cb".toList).map String.ofList = ["a", "b"] := by
  refine ⟨by decide, by decide +kernel, by decide +kernel, by decide⟩

end SimpleLR
