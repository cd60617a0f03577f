/-
# The shortest example

The walk that looks for an example remembers of each state that it meets which state and which byte
it came from. Whatever states it has met (`Walk`), going back from one of them to the start spells
the least byte string that leads to it (`Walk.tracedBack_iff`, `Walk.isLeastTo`): no later step
changes that, and the cycles of the automaton do not matter, since a state is met once.

The walk ends at the first accepting state that it looks at, and what is spelled there is the least
member of the language (`Constructed.example_shortest`). The example is the text of these bytes. It
has just these bytes exactly if some text has them, and then it is accepted itself. A language whose
least member is no text shows that this can fail (`example_shortest_notText`).
-/

import RouteSolver.Proofs.Automaton.Exact
import RouteSolver.Proofs.Text.Utf8

namespace RouteSolver
namespace Automaton

/-- The string leads to the state, and no other one that does comes before it. -/
def IsLeastTo (a : Automaton) (q : Nat) (w : List UInt8) : Prop :=
  a.run w = q ∧ ∀ u, a.run u = q → NoLater w u

/-! ### The walk step by step -/

/-- What the walk comes to: its states in the queue, and how many of them it has looked at. It goes
on as long as they do not accept. -/
inductive Walk (a : Automaton) : Search → Nat → Prop
  | start : Walk a ⟨#[(0, [])], (Array.replicate a.size false).setIfInBounds 0 true⟩ 0
  | step {search : Search} {i q : Nat} {path : List UInt8} (h : Walk a search i)
    (hi : search.queue[i]? = some (q, path)) (hrej : a.isAccepting q = false) :
    Walk a (.extend a q path a.alphabet.representatives.toList search) (i + 1)

namespace Search

/-- The state was met from another one by reading a byte. -/
def MetFrom (search : Search) (q r : Nat) (b : UInt8) : Prop :=
  ∃ (k j : Nat) (p : List UInt8), search.queue[k]? = some (q, b :: p) ∧
    search.queue[j]? = some (r, p)

/-- Going back from a state to the start spells a byte string. -/
inductive TracedBack (search : Search) : Nat → List UInt8 → Prop
  | start : TracedBack search 0 []
  | back {q r : Nat} {b : UInt8} {w : List UInt8} (hmet : search.MetFrom q r b)
    (h : TracedBack search r w) : TracedBack search q (w ++ [b])

end Search

variable {a : Automaton} {search : Search} {i : Nat}

theorem Walk.looked (ha : a.Valid) (h : a.Walk search i) : search.Looked a i := by
  induction h with
  | start => exact Search.looked_start ha
  | step _ hi hrej ih => exact ih.step ha hi hrej

/-- **Paths are least**: a string that leads to a state of the queue does not come before the path
that the queue has for it. The last byte of the string is read in a state that has been looked at,
or else the string comes after everything that is in the queue. -/
theorem Search.Looked.isLeastTo (h : search.Looked a i) {k q : Nat} {p : List UInt8}
    (hk : search.queue[k]? = some (q, p)) : a.IsLeastTo q p.reverse := by
  refine ⟨h.ordered.run_eq k q p hk, fun u hu => ?_⟩
  have hpath : ∀ {j : Nat} {p' : List UInt8}, search.queue[j]? = some (q, p') → p' = p := by
    intro j p' hj
    obtain rfl := h.ordered.distinct j k q p' p hj hk
    exact (Prod.mk.inj (Option.some.inj (hj.symm.trans hk))).2
  cases u using List.reverseRecOn with
  | nil =>
    obtain rfl : q = 0 := hu.symm
    rw [← hpath h.ordered.start]
    exact .refl _
  | append_singleton u b =>
    rw [run_concat] at hu
    rcases h.waiting_or_looked u with ⟨j, p', hj, hget, hp'⟩ | ⟨j, e, hj, hget, he⟩
    · obtain ⟨l, p'', hl, hp''⟩ := h.successors j _ p' hj hget b
      rw [hu] at hl
      rw [← hpath hl]
      exact hp''.trans (hp'.concat b)
    · exact .trans (.inr (h.last k j _ e hj hk hget b)) (he.concat b)

/-- The state from which a state was met is in the queue as well. -/
theorem Walk.metFrom (ha : a.Valid) (h : a.Walk search i) {k q : Nat} {b : UInt8} {p : List UInt8}
    (hk : search.queue[k]? = some (q, b :: p)) : ∃ j r : Nat, search.queue[j]? = some (r, p) := by
  induction h generalizing k q b p with
  | start =>
    cases k with
    | zero => exact nomatch (Prod.mk.inj (Option.some.inj hk)).2
    | succ k => exact nomatch hk
  | @step search i r path h hi hrej ih =>
    have hlooked := h.looked ha
    obtain ⟨-, hgrow, -, hnew⟩ := Search.Ordered.extend ha (hlooked.ordered.run_eq i r path hi) _
      ha.alphabet.ascending hlooked.ordered fun k e hk b _ =>
        hlooked.last k i e _ (Nat.le_refl i) hk hi b
    rcases hnew k _ hk with hold | ⟨c, hc⟩
    · obtain ⟨j, s, hj⟩ := ih hold
      exact ⟨j, s, hgrow j _ hj⟩
    · obtain ⟨-, rfl⟩ := List.cons.inj hc
      exact ⟨i, r, hgrow i _ hi⟩

/-- **Going back to the start** spells the path of the queue and nothing else. -/
theorem Walk.tracedBack_iff (ha : a.Valid) (h : a.Walk search i) {k q : Nat} {p : List UInt8}
    (hk : search.queue[k]? = some (q, p)) (w : List UInt8) :
    search.TracedBack q w ↔ w = p.reverse := by
  have hordered := (h.looked ha).ordered
  have hpath : ∀ {j k q : Nat} {p p' : List UInt8}, search.queue[j]? = some (q, p) →
      search.queue[k]? = some (q, p') → p = p' := by
    intro j k q p p' hj hk
    obtain rfl := hordered.distinct j k q p p' hj hk
    exact (Prod.mk.inj (Option.some.inj (hj.symm.trans hk))).2
  constructor
  · intro hw
    induction hw generalizing k p with
    | start => rw [← hpath hordered.start hk]; rfl
    | back hmet _ ih =>
      obtain ⟨l, j, p', hl, hj⟩ := hmet
      rw [← hpath hl hk, ih hj, List.reverse_cons]
  · rintro rfl
    induction p generalizing k q with
    | nil =>
      obtain rfl : 0 = q := hordered.run_eq k q [] hk
      exact .start
    | cons b p ih =>
      obtain ⟨j, r, hj⟩ := h.metFrom ha hk
      rw [List.reverse_cons]
      exact .back ⟨k, j, p, hk, hj⟩ (ih hj)

/-- What the search returns was spelled from an accepting state that the walk came to. -/
theorem exists_walk_of_leastFrom {bound : Nat} {w : List UInt8} (h : a.Walk search i)
    (hw : a.leastFrom bound i search = some w) :
    ∃ (search : Search) (i q : Nat) (p : List UInt8), a.Walk search i ∧
      search.queue[i]? = some (q, p) ∧ a.isAccepting q = true ∧ w = p.reverse := by
  induction bound generalizing i search with
  | zero => cases hw
  | succ bound ih =>
    rw [leastFrom] at hw
    split at hw
    · cases hw
    rename_i q p hi
    split at hw
    · rename_i hacc
      exact ⟨search, i, q, p, h, hi, hacc, (Option.some.inj hw).symm⟩
    · rename_i hrej
      exact ih (h.step hi (Bool.eq_false_iff.2 hrej)) hw

/-! ### The example -/

/-- **The example is the least member of the language**, if there is a member at all. The search
walks to an accepting state and spells the way back from it; on the way, every state that it has met
is spelled by the least string that leads there. The example is the text of the least member. It has
the same bytes exactly if they are those of a text, and is then accepted. -/
theorem Constructed.example_shortest (h : a.Constructed) (hne : ∃ u, a.acceptsBytes u = true) :
    ∃ w, (a.IsLeast w ∧ ∀ v, a.IsLeast v → v = w) ∧
      a.example? = some (Utf8.decode w) ∧
      (Utf8.bytes (Utf8.decode w) = w ↔ ∃ text, Utf8.bytes text = w) ∧
      (∀ text, Utf8.bytes text = w → a.example? = some text ∧ a.accepts text = true) ∧
      (∃ (search : Search) (i q : Nat) (p : List UInt8), a.Walk search i ∧
        search.queue[i]? = some (q, p) ∧ a.isAccepting q = true ∧ search.TracedBack q w) ∧
      ∀ search i, a.Walk search i → ∀ (k q : Nat) (p : List UInt8),
        search.queue[k]? = some (q, p) →
          ∃ v, a.IsLeastTo q v ∧ ∀ v', search.TracedBack q v' ↔ v' = v := by
  have hvalid := h.valid
  obtain ⟨u, hu⟩ := hne
  obtain ⟨w, hw, hleast⟩ := hvalid.leastBytes_eq_some hu
  have hexample : a.example? = some (Utf8.decode w) := by rw [example?, hw, Option.map_some]
  refine ⟨w, ⟨hleast, fun v hv => hv.eq hleast⟩, hexample, Utf8.bytes_decode_eq_iff w, ?_, ?_, ?_⟩
  · rintro text rfl
    exact ⟨by rw [hexample, Utf8.decode_bytes], hleast.1⟩
  · obtain ⟨search, i, q, p, hwalk, hi, hacc, rfl⟩ := exists_walk_of_leastFrom .start hw
    exact ⟨search, i, q, p, hwalk, hi, hacc, (hwalk.tracedBack_iff hvalid hi _).2 rfl⟩
  · intro search i hwalk k q p hk
    exact ⟨p.reverse, (hwalk.looked hvalid).isLeastTo hk, hwalk.tracedBack_iff hvalid hk⟩

/-- A single byte that begins no character: the example is the replacement character, which the
language does not have. -/
theorem example_shortest_notText :
    (ofExpr (.byte (.single 255))).Constructed ∧
      (ofExpr (.byte (.single 255))).acceptsBytes [255] = true ∧
      (ofExpr (.byte (.single 255))).example? = some "\ufffd" ∧
      (ofExpr (.byte (.single 255))).accepts "\ufffd" = false := by
  have haccepts : ∀ w, (ofExpr (.byte (.single 255))).acceptsBytes w = true ↔ w = [255] := by
    intro w
    rw [acceptsBytes_ofExpr, (Regex.Expr.Means.byte _).language_iff]
    simp [ByteSet.contains_single]
  have hmade : (ofExpr (.byte (.single 255))).Constructed := .ofExpr _
  have hmember := (haccepts [255]).2 rfl
  obtain ⟨w, ⟨hleast, -⟩, hexample, -⟩ := hmade.example_shortest ⟨_, hmember⟩
  obtain rfl := (haccepts w).1 hleast.1
  refine ⟨hmade, hmember, hexample, ?_⟩
  rw [← Bool.not_eq_true, accepts, haccepts]
  decide

end Automaton
end RouteSolver
