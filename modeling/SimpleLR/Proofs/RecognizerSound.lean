import SimpleLR.Proofs.RecognizerMoves
import Mathlib
/-!
# The recognizer is sound

`Derives` is the rightmost derivation relation of a grammar: each step rewrites the left-hand
side of a rule into its body, with nothing but terminals to its right. A configuration of a
run is `Sound` when, beyond being viable, the symbols its stack read derive the tokens it took
by the rules it reduced, the last reduced applied first. A shift appends a terminal on both
sides, and a reduction puts the rule's left-hand side in place of its body on top, which is one
more rightmost step in front; so every move keeps a configuration sound, and on accept the
stack read just the start symbol of the text.

The main statement, `recognize_sound`: whenever the recognizer accepts a list of tokens on the
table of a grammar read from text, every token other than the end marker is a terminal, the
augmented start rule was never reduced, and the reduced rules, read backwards, are a rightmost
derivation of the tokens from the start symbol of the text.
-/

namespace SimpleLR

namespace Grammar

/-- `g.Derives α ks w`: the form `α` rewrites to `w` by a rightmost derivation that applies the
rules numbered `ks` in order; each step rewrites the left-hand side of its rule into the rule's
body, and no symbol to its right is defined by a rule. -/
inductive Derives (g : Grammar) : List Symbol → List Nat → List Symbol → Prop where
  | refl (w : List Symbol) : g.Derives w [] w
  | step {x y w : List Symbol} {k : Nat} {ks : List Nat} {r : Rule} :
      g.rules[k]? = some r → (∀ b ∈ y, ∀ r' ∈ g.rules, r'.lhs ≠ b) →
      g.Derives (x ++ r.body ++ y) ks w → g.Derives (x ++ r.lhs :: y) (k :: ks) w

variable {g : Grammar}

theorem Derives.append_terminal {α w : List Symbol} {ks : List Nat} (h : g.Derives α ks w)
    {a : Symbol} (ha : ∀ r ∈ g.rules, r.lhs ≠ a) : g.Derives (α ++ [a]) ks (w ++ [a]) := by
  induction h with
  | refl w => exact .refl _
  | @step x y w k ks r hr hy _ ih =>
    have hform : x ++ r.lhs :: y ++ [a] = x ++ r.lhs :: (y ++ [a]) := by simp
    have hbody : x ++ r.body ++ y ++ [a] = x ++ r.body ++ (y ++ [a]) := by simp
    rw [hform]
    apply Derives.step hr
    · intro b hb r' hr'
      rcases List.mem_append.1 hb with hb | hb
      · exact hy b hb r' hr'
      · rw [List.mem_singleton.1 hb]
        exact ha r' hr'
    · rw [← hbody]
      exact ih

/-- What every configuration of an accepting run holds: it is viable, the tokens it took are
terminals, and the symbols its stack read derive those tokens by the rules it reduced, last
reduced first, none of them the augmented start rule. -/
structure Sound (g : Grammar) (w : List Symbol) (c : Config) (syms : List Symbol) : Prop
    extends Viable g w c syms where
  terminals : ∀ a ∈ (w.filter (· != endMarker)).take c.taken, a ∈ g.vocabulary.terminals
  derives : g.Derives syms.reverse c.reduced ((w.filter (· != endMarker)).take c.taken)
  no_start : 0 ∉ c.reduced

theorem Sound.start (w : List Symbol) : Sound g w (Table.start w) [] where
  toViable := Viable.start w
  terminals := by simp [Table.start]
  derives := .refl []
  no_start := List.not_mem_nil

theorem Sound.shift (hwf : g.WellFormed) {w : List Symbol} {c : Config} {syms : List Symbol}
    (hs : Sound g w c syms) {s : Nat} {below : List Nat} {look : Symbol} {more : List Symbol}
    {n : Nat} (hstack : c.stack = s :: below) (hr : c.rest = look :: more)
    (hterm : g.vocabulary.isTerminal look = true) (hn : g.automaton.target? s look = some n) :
    Sound g w { c with stack := n :: c.stack, rest := more, taken := c.taken + 1, seen := [] }
      (look :: syms) := by
  obtain ⟨hget, -⟩ := hs.getElem?_taken hr (hwf.ne_endMarker_of_isTerminal hterm)
  have htake : (w.filter (· != endMarker)).take (c.taken + 1) =
      (w.filter (· != endMarker)).take c.taken ++ [look] := by
    rw [List.take_add_one, hget]
    rfl
  refine ⟨hs.toViable.shift hwf hstack hr hterm hn, ?_, ?_, hs.no_start⟩
  · intro a ha
    rw [htake] at ha
    rcases List.mem_append.1 ha with ha | ha
    · exact hs.terminals a ha
    · rw [List.mem_singleton.1 ha]
      exact isTerminal_iff.1 hterm
  · show g.Derives (look :: syms).reverse c.reduced _
    rw [htake, List.reverse_cons]
    exact hs.derives.append_terminal fun r hr' => lhs_ne_of_isTerminal hterm hr'

theorem Sound.reduce (hwf : g.WellFormed) {w : List Symbol} {c : Config} {syms : List Symbol}
    (hs : Sound g w c syms) {s : Nat} {below : List Nat} {st : State} {i : Item}
    (hstack : c.stack = s :: below) (hst : g.automaton.states[s]? = some st) (hi : i ∈ st.items)
    (hend : i.atEnd = true) (hne : i ≠ g.acceptItem) {k : Nat} {r : Rule}
    (hk : g.rules[k]? = some r) (hl : r.lhs = i.lhs) (hrhs : r.rhs = i.rhs) {u : Nat}
    {lower : List Nat} {n : Nat} (hdrop : c.stack.drop r.body.length = u :: lower)
    (hn : g.automaton.target? u r.lhs = some n) :
    Sound g w { c with
      stack := n :: u :: lower
      reduced := k :: c.reduced
      seen := (n :: u :: lower) :: c.seen } (r.lhs :: syms.drop r.body.length) := by
  obtain ⟨-, htake, -⟩ := Path.reduce hwf hs.path hstack hst hi hend hne
  rw [← body_eq_of_rhs_eq hrhs] at htake
  refine ⟨hs.toViable.reduce hwf hstack hst hi hend hne hrhs hdrop hn, hs.terminals, ?_, ?_⟩
  · have hsplit : syms.reverse = (syms.drop r.body.length).reverse ++ r.body := by
      conv_lhs => rw [← List.take_append_drop r.body.length syms]
      rw [List.reverse_append, htake]
    show g.Derives (r.lhs :: syms.drop r.body.length).reverse (k :: c.reduced) _
    rw [List.reverse_cons]
    apply Derives.step hk (fun b hb => absurd hb List.not_mem_nil)
    rw [List.append_nil, ← hsplit]
    exact hs.derives
  · -- rule 0 is the augmented start rule, whose finished item accepts instead
    intro h0
    rcases List.mem_cons.1 h0 with h0 | h0
    · exact (reduced_rule_mem_productions hwf hst hi hend hne hk hl hrhs).1 h0.symm
    · exact hs.no_start h0

theorem Moves.sound (hwf : g.WellFormed) {w : List Symbol} {c c' : Config} {syms : List Symbol}
    (hm : g.Moves c c') (hs : Sound g w c syms) : ∃ syms', Sound g w c' syms' := by
  cases hm with
  | shift hstack hr hterm hn => exact ⟨_, hs.shift hwf hstack hr hterm hn⟩
  | reduce hstack hst hi hend hne hk hl hrhs hdrop hn =>
    exact ⟨_, hs.reduce hwf hstack hst hi hend hne hk hl hrhs hdrop hn⟩

theorem Sound.accepted (hwf : g.WellFormed) {w : List Symbol} {c : Config} {syms : List Symbol}
    (hs : Sound g w c syms) {R : List Nat} (h : g.analyze.table.step g.rules c = .accepted R) :
    (∀ a ∈ w.filter (· != endMarker), a ∈ g.vocabulary.terminals) ∧ 0 ∉ R ∧
      g.Derives [g.origin] R.reverse (w.filter (· != endMarker)) := by
  obtain ⟨s, below, more, st, hstack, hr, hst, hacc, rfl⟩ := step_eq_accepted hwf h
  have hpath := hs.path
  rw [hstack] at hpath
  obtain ⟨-, hsyms⟩ := Path.accept hwf hpath hst hacc
  have hdrop : (w.filter (· != endMarker)).drop c.taken = [] := by
    have hrest := hs.rest_eq
    rw [hr] at hrest
    cases hd : (w.filter (· != endMarker)).drop c.taken with
    | nil => rfl
    | cons x xs =>
      rw [hd, List.cons_append] at hrest
      have hx : x ∈ w.filter (· != endMarker) :=
        List.mem_of_mem_drop (hd ▸ List.mem_cons_self : x ∈ _)
      rw [← (List.cons.inj hrest).1] at hx
      simp at hx
  have hall : (w.filter (· != endMarker)).take c.taken = w.filter (· != endMarker) := by
    rw [← List.take_append_drop c.taken (w.filter (· != endMarker)), hdrop, List.append_nil,
      List.take_take, Nat.min_self]
  refine ⟨?_, ?_, ?_⟩
  · intro a ha
    rw [← hall] at ha
    exact hs.terminals a ha
  · rw [List.mem_reverse]
    exact hs.no_start
  · have hderiv := hs.derives
    rw [hsyms, hall] at hderiv
    rw [List.reverse_reverse]
    exact hderiv

theorem run_sound (hwf : g.WellFormed) {w : List Symbol} :
    ∀ (fuel : Nat) {c : Config} {syms : List Symbol} {R : List Nat}, Sound g w c syms →
      g.analyze.table.run g.rules fuel c = .ok R →
      (∀ a ∈ w.filter (· != endMarker), a ∈ g.vocabulary.terminals) ∧ 0 ∉ R ∧
        g.Derives [g.origin] R.reverse (w.filter (· != endMarker))
  | 0, _, _, _, _, h => by cases h
  | fuel + 1, c, _, R, hs, h => by
    rw [Table.run] at h
    cases hstep : g.analyze.table.step g.rules c with
    | next c' =>
      rw [hstep] at h
      obtain ⟨syms', hs'⟩ := (step_eq_next hwf hstep).sound hwf hs
      exact run_sound hwf fuel hs' h
    | accepted rs =>
      rw [hstep] at h
      cases h
      exact hs.accepted hwf hstep
    | failed e =>
      rw [hstep] at h
      cases h

/-- Whenever the recognizer accepts a list of tokens on the table of a grammar read from text,
every token other than the end marker is a terminal, the augmented start rule was never
reduced, and the rules reduced, read backwards, are a rightmost derivation of the tokens from
the start symbol of the text. -/
theorem recognize_sound {text : String} {g : Grammar} (hg : Grammar.read text = .ok g)
    {w : List Symbol} {R : List Nat} (h : g.analyze.table.recognize g.rules w = .ok R) :
    (∀ a ∈ w, a ≠ endMarker → a ∈ g.analyze.vocabulary.terminals) ∧ 0 ∉ R ∧
      g.Derives [g.origin] R.reverse (w.filter (· != endMarker)) := by
  have hwf := read_wellFormed hg
  obtain ⟨hterm, hno, hderiv⟩ := run_sound hwf _ (Sound.start w) h
  refine ⟨fun a ha hne => hterm a ?_, hno, hderiv⟩
  simpa [List.mem_filter] using And.intro ha hne

/-- The grammar of sums of identifiers. -/
def sums : Grammar :=
  ⟨"E", "E'", [⟨"E", ["E", "+", "T"], some 1⟩, ⟨"E", ["T"], some 1⟩, ⟨"T", ["id"], some 2⟩]⟩

set_option maxRecDepth 1500 in
/-- The recognizer accepts `id + id` in the grammar of sums, by a rightmost derivation. -/
theorem recognize_sound_sums :
    Grammar.read "E -> E + T | T\nT -> id" = .ok sums ∧
      sums.analyze.table.recognize sums.rules ["id", "+", "id"] = .ok [3, 2, 3, 1] ∧
      (∀ a ∈ ["id", "+", "id"], a ≠ endMarker → a ∈ sums.analyze.vocabulary.terminals) ∧
      0 ∉ [3, 2, 3, 1] ∧
      sums.Derives [sums.origin] [3, 2, 3, 1].reverse (["id", "+", "id"].filter (· != endMarker)) := by
  have hread : Grammar.read "E -> E + T | T\nT -> id" = .ok sums := by rfl
  have hrun : sums.analyze.table.recognize sums.rules ["id", "+", "id"] = .ok [3, 2, 3, 1] := by
    simp only [Table.recognize, Table.stepBudget, Nat.pow_eq]
    cbv
  exact ⟨hread, hrun, recognize_sound hread hrun⟩

end Grammar

end SimpleLR
