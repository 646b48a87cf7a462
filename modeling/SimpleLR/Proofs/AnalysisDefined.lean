import SimpleLR.Proofs.ConflictPolicy
import SimpleLR.Proofs.RecognizerSound
import SimpleLR.Proofs.QueueOrder
/-!
# The analysis of a grammar read from text never fails

Each step of the analysis has a way out that a careless input could take: the queue that builds
the automaton could fail to empty within its turns or keep a pending transition whose key no
state has, and a reduction names its rule by looking the rule up by its left-hand side and
alternative. None is taken for a grammar read from text. The queue empties and resolves every
pending transition, into the automaton of the analysis (`drain_start`, `queueAutomaton_of_drain`,
for every grammar); every symbol after a dot has a transition, to the state of its goto; and
every finished item is the finished augmented start item, which the table turns into accept
before any reduction, or an item of a rule of the text, found by its number (`itemOf_cases`).
FIRST and FOLLOW are total functions here, their searches ending by the measures they are
defined with.
-/

namespace SimpleLR

namespace Grammar

variable {g : Grammar}

/-- An item of a grammar whose augmented start names no rule of the text is an item of the
augmented start rule, or of a rule of the text, which the lookup by left-hand side and
alternative finds by its number. -/
theorem itemOf_cases (hwf : g.WellFormed) {i : Item} (hi : g.ItemOf i) :
    (i.lhs = g.start ∧ i.rhs = [g.origin]) ∨
      (i.lhs ≠ g.start ∧ ∃ k r, g.ruleIndex? i.lhs i.rhs = some (k + 1) ∧
        g.productions[k]? = some r ∧ r.lhs = i.lhs ∧ r.rhs = i.rhs) := by
  obtain ⟨m, hm⟩ := Option.isSome_iff_exists.1 (isSome_ruleIndex? hi)
  obtain ⟨r, hr, hl, hrhs, -⟩ := hi
  rcases List.mem_cons.1 hr with rfl | hr
  · exact .inl ⟨hl.symm, hrhs.symm⟩
  · have hne : i.lhs ≠ g.start := hl ▸ hwf.start_ne_lhs r hr
    refine .inr ⟨hne, ?_⟩
    obtain ⟨r', hr', hl', hrhs'⟩ := ruleIndex?_eq_some hm
    -- rule 0 is the augmented start rule, whose left-hand side the item does not have
    cases m with
    | zero =>
      simp only [rules, List.getElem?_cons_zero, Option.some.injEq] at hr'
      subst hr'
      exact absurd hl'.symm hne
    | succ k =>
      simp only [rules, List.getElem?_cons_succ] at hr'
      exact ⟨k, r', hm, hr', hl', hrhs'⟩

theorem exists_transition {s : Nat} {st : State} (hs : g.automaton.states[s]? = some st)
    {i : Item} (hi : i ∈ st.items) {x : Symbol} (hx : i.next? = some x) :
    ∃ t st' next, g.automaton.target? s x = some t ∧ g.automaton.states[t]? = some st' ∧
      g.goto? st.items x = some next ∧ ∀ y, y ∈ st'.items ↔ y ∈ next := by
  obtain ⟨t, ht⟩ := Option.isSome_iff_exists.1 ((isSome_target?_iff hs).2 ⟨i, hi, hx⟩)
  obtain ⟨st', next, hst', hgoto, hsame⟩ := target?_goto? hs ht
  exact ⟨t, st', next, ht, hst', hgoto, hsame⟩

/-- For a grammar read from text, the analysis takes none of its ways out: the queue empties
within its turns and resolves every pending transition to a registered state, building the
automaton of the analysis; in every state, every symbol
after a dot has a transition, to the state of its goto; and every finished item is the finished
augmented start item, which accepts, or an item of a rule of the text other than the augmented
one, which the lookup by left-hand side and alternative finds. -/
theorem analyze_of_read_never_fails {text : String} {g : Grammar}
    (hread : Grammar.read text = .ok g) :
    g.queueAutomaton = some (g.analyze.automaton, g.analyze.automaton.edges) ∧
      ∀ s st, g.analyze.automaton.states[s]? = some st →
        (∀ i ∈ st.items, ∀ x, i.next? = some x →
          ∃ t st' next, g.analyze.automaton.target? s x = some t ∧
            g.analyze.automaton.states[t]? = some st' ∧ g.goto? st.items x = some next ∧
            ∀ y, y ∈ st'.items ↔ y ∈ next) ∧
        ∀ i ∈ st.items, i.next? = none →
          (i.lhs = g.start ∧ i.rhs = [g.origin]) ∨
            (i.lhs ≠ g.start ∧ ∃ k r, g.ruleIndex? i.lhs i.rhs = some (k + 1) ∧
              g.productions[k]? = some r ∧ r.lhs = i.lhs ∧ r.rhs = i.rhs) := by
  obtain ⟨b, found, done, hexplored, hdrain, hregistered, hpending⟩ := g.drain_start
  refine ⟨queueAutomaton_of_drain hexplored hdrain hregistered hpending,
    fun s st hs => ⟨fun i hi x hx => exists_transition hs hi hx, fun i hi _ => ?_⟩⟩
  exact itemOf_cases (read_wellFormed hread) (itemOf_of_mem_states (List.mem_of_getElem? hs) hi)

/-- In the grammar of sums, the queue builds the automaton of the analysis. -/
theorem analyze_of_read_never_fails_sums :
    Grammar.read "E -> E + T | T\nT -> id" = .ok sums ∧
      sums.queueAutomaton = some (sums.analyze.automaton, sums.analyze.automaton.edges) := by
  have hread : Grammar.read "E -> E + T | T\nT -> id" = .ok sums := by rfl
  exact ⟨hread, (analyze_of_read_never_fails hread).1⟩

end Grammar

end SimpleLR
