/-
# Emptiness, inclusion and the least member

Three questions about languages are answered by looking at the table of an automaton: whether there
is a member, which one is the least, and whether all members belong to another language. The answers
are exact for all automata that can be made (`Constructed.answers_exact`). Emptiness only asks
whether some state accepts, so it rests on the invariant of `Valid` that every state can be reached;
inclusion is emptiness of a difference.
-/

import RouteSolver.Proofs.Automaton.Constructed
import RouteSolver.Proofs.Automaton.Least

namespace RouteSolver
namespace Automaton

variable {a b : Automaton}

/-- **The least member** is what the search gives, and nothing else. -/
theorem Valid.leastBytes_eq_some_iff (h : a.Valid) {w : List UInt8} :
    a.leastBytes = some w ↔ a.IsLeast w := by
  refine ⟨h.isLeast_of_leastBytes, fun hw => ?_⟩
  obtain ⟨v, hv, hleast⟩ := h.leastBytes_eq_some hw.1
  rw [hv, hleast.eq hw]

theorem Valid.leastBytes_eq_none_iff (h : a.Valid) :
    a.leastBytes = none ↔ ∀ w, a.acceptsBytes w = false := by
  constructor
  · intro hnone w
    by_contra hw
    obtain ⟨v, hv, -⟩ := h.leastBytes_eq_some (Bool.not_eq_false _ ▸ hw)
    exact nomatch hnone.symm.trans hv
  · intro hall
    rcases h.leastBytes_spec with ⟨w, -, hw⟩ | ⟨hnone, -⟩
    · exact Bool.noConfusion ((hall w).symm.trans hw.1)
    · exact hnone

/-- **Questions about languages are answered exactly** for every automaton that can be made. For
every state and every byte the table has an entry, which is a state, and every state is reached from
the first one. So a language is empty exactly if no state accepts, exactly if it has no example; the
example is the least member; and inclusion holds if every byte string that the one accepts is
accepted by the other. -/
theorem Constructed.answers_exact (ha : a.Constructed) :
    (∀ q, q < a.size → (∀ byte, ∃ row, a.rows[q]? = some row ∧
        row[a.alphabet.letter byte]? = some (a.step q byte) ∧ a.step q byte < a.size) ∧
      ∃ w, a.run w = q) ∧
    0 < a.size ∧
    (a.isEmpty = true ↔ ∀ w, a.acceptsBytes w = false) ∧
    (a.isEmpty = true ↔ a.example? = none) ∧
    (∀ w, a.leastBytes = some w ↔ a.IsLeast w) ∧
    ∀ b : Automaton, b.Constructed →
      (a.subsetOf b = true ↔ ∀ w, a.acceptsBytes w = true → b.acceptsBytes w = true) := by
  have h := ha.valid
  refine ⟨fun q hq => ⟨fun byte => ?_, h.exists_run_eq q hq⟩, h.size_pos, h.isEmpty_iff, ?_,
    fun w => h.leastBytes_eq_some_iff, fun b hb => h.subsetOf_iff hb.valid⟩
  · obtain ⟨row, hrow⟩ := h.exists_row hq
    exact ⟨row, hrow, h.getElem?_row hrow byte, h.step_lt hq byte⟩
  · rw [example?, Option.map_eq_none_iff, h.leastBytes_eq_none_iff, h.isEmpty_iff]

/-- Two different texts have no byte string in common: what is common to them is empty, has no
example, and lies in the complement of either. -/
theorem answers_exact_disjointTexts :
    ((ofText "1:2").inter (ofText "2:1")).Constructed ∧ (ofText "1:2").compl.Constructed ∧
      ((ofText "1:2").inter (ofText "2:1")).isEmpty = true ∧
      ((ofText "1:2").inter (ofText "2:1")).example? = none ∧
      ((ofText "1:2").inter (ofText "2:1")).subsetOf (ofText "1:2").compl = true := by
  have hcommon : ((ofText "1:2").inter (ofText "2:1")).Constructed := .inter (.ofText _) (.ofText _)
  have hcompl : (ofText "1:2").compl.Constructed := .compl (.ofText _)
  have hnone : ∀ w, ((ofText "1:2").inter (ofText "2:1")).acceptsBytes w = false := by
    intro w
    rw [(Constructed.ofText _).valid.acceptsBytes_inter (Constructed.ofText _).valid,
      ← Bool.not_eq_true, Bool.and_eq_true]
    rintro ⟨hone, htwo⟩
    have heq := ((acceptsBytes_ofBytes _ w).1 hone).symm.trans ((acceptsBytes_ofBytes _ w).1 htwo)
    exact absurd heq (by decide +kernel)
  obtain ⟨-, -, hempty, hexample, -, hsubset⟩ := hcommon.answers_exact
  exact ⟨hcommon, hcompl, hempty.2 hnone, hexample.1 (hempty.2 hnone),
    (hsubset _ hcompl).2 fun w hw => Bool.noConfusion ((hnone w).symm.trans hw)⟩

end Automaton
end RouteSolver
