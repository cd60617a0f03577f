/-
# Sessions with a store

A session is a store together with the diagrams that it has given out. It serves requests in any
order: operations, which may add nodes, and the two questions `Store.separates` and `Store.eval`,
which may not. A request may take any diagram that has been given out before
(`Session.Allows`).

`handles_canonical` says what may be relied on at every moment of every session. All nodes are
reduced, ordered and different from each other (`Store.Canonical`); a diagram keeps its function,
whatever is asked for afterwards; and two diagrams are the same one exactly when they have the same
function, so that only the false diagram is false everywhere. One request keeps a session sound
(`Session.Sound.serve`), hence all of them do (`Session.Sound.serveAll`).
-/

import RouteSolver.Proofs.Diagram.Reachable

namespace RouteSolver
namespace Diagram

/-! ### Requests -/

/-- What can be asked for: an operation, or one of the questions about diagrams. -/
inductive Request where
  | build (o : Operation)
  | separates (a b : Ref)
  | eval (a : Ref) (v : Valuation)

/-- What a request is answered with. -/
inductive Reply where
  | diagram (r : Ref)
  | truth (b : Bool)

/-- The diagrams that a reply gives out. -/
def Reply.handles : Reply → List Ref
  | diagram r => [r]
  | truth _ => []

namespace Request

/-- The diagrams that a request takes. -/
def operands : Request → List Ref
  | build o => o.operands
  | separates a b => [a, b]
  | eval a _ => [a]

/-- How a request is answered. -/
def run : Request → Build Reply
  | build o => return .diagram (← o.run)
  | separates a b => return .truth ((← get).separates a b)
  | eval a v => return .truth ((← get).eval a v)

end Request

/-! ### Sessions -/

/-- A store and the diagrams that it has given out. -/
structure Session where
  store : Store
  handles : List Ref

namespace Session

/-- A new store, of which the two constants are known. -/
def fresh : Session := ⟨.empty, [.bot, .top]⟩

/-- The session after one more request. -/
def serve (x : Session) (q : Request) : Session where
  store := (q.run x.store).2
  handles := (q.run x.store).1.handles ++ x.handles

/-- The session after some more requests. -/
def serveAll (x : Session) (qs : List Request) : Session := qs.foldl serve x

/-- Each of the requests takes only diagrams that have been given out before it. -/
def Allows (x : Session) : List Request → Prop
  | [] => True
  | q :: qs => (∀ r ∈ q.operands, r ∈ x.handles) ∧ (x.serve q).Allows qs

theorem serveAll_append (x : Session) (past future : List Request) :
    x.serveAll (past ++ future) = (x.serveAll past).serveAll future := List.foldl_append

theorem allows_append {x : Session} {past future : List Request} :
    x.Allows (past ++ future) ↔ x.Allows past ∧ (x.serveAll past).Allows future := by
  induction past generalizing x with
  | nil => simp only [List.nil_append, Allows, serveAll, List.foldl_nil, true_and]
  | cons q past ih => rw [List.cons_append, Allows, Allows, ih, and_assoc]; rfl

/-- The session `y` has everything that `x` has. -/
structure Within (x y : Session) : Prop where
  store_le : x.store ≤ y.store
  handles_subset : x.handles ⊆ y.handles

theorem Within.refl (x : Session) : x.Within x := ⟨le_rfl, List.Subset.refl _⟩

theorem Within.trans {x y z : Session} (h : x.Within y) (k : y.Within z) : x.Within z :=
  ⟨h.store_le.trans k.store_le, List.Subset.trans h.handles_subset k.handles_subset⟩

/-- Operations have led to the store, and it has every diagram that has been given out. -/
structure Sound (x : Session) : Prop where
  reachable : x.store.Reachable
  has : ∀ r ∈ x.handles, x.store.Has r

theorem sound_fresh : fresh.Sound where
  reachable := .empty
  has r hr := by
    have h : r = .bot ∨ r = .top := by simpa [fresh] using hr
    rcases h with rfl | rfl
    · exact Store.valid_empty.has_bot
    · exact Store.valid_empty.has_top

/-- **One request** keeps a session sound and everything that it has. -/
theorem Sound.serve {x : Session} (hx : x.Sound) {q : Request}
    (hq : ∀ r ∈ q.operands, r ∈ x.handles) : (x.serve q).Sound ∧ x.Within (x.serve q) := by
  cases q with
  | build o =>
    have ho : ∀ r ∈ o.operands, x.store.Has r := fun r hr => hx.has r (hq r hr)
    obtain ⟨-, hle, hres⟩ := Store.yields_run o ho hx.reachable.valid
    refine ⟨⟨.step o hx.reachable ho, fun r hr => ?_⟩, hle, List.subset_append_right _ _⟩
    rcases List.mem_append.1 hr with hr | hr
    · obtain rfl := List.mem_singleton.1 hr
      exact hres
    · exact (hx.has r hr).mono hle
  | separates a b => exact ⟨hx, .refl x⟩
  | eval a v => exact ⟨hx, .refl x⟩

/-- **All requests** do. -/
theorem Sound.serveAll {x : Session} (hx : x.Sound) {qs : List Request} (hqs : x.Allows qs) :
    (x.serveAll qs).Sound ∧ x.Within (x.serveAll qs) := by
  induction qs generalizing x with
  | nil => exact ⟨hx, .refl x⟩
  | cons q qs ih =>
    obtain ⟨hnext, hxnext⟩ := hx.serve hqs.1
    obtain ⟨hlast, hnextlast⟩ := ih hnext hqs.2
    exact ⟨hlast, hxnext.trans hnextlast⟩

end Session

/-! ### What may be relied on -/

/-- Every node asks for a variable that has been named, has two different children, and asks before
they do; and no two nodes are the same. -/
structure Store.Canonical (s : Store) : Prop where
  low_ne_high : ∀ r, s.Has r → r.isConstant = false → (s.node r).low ≠ (s.node r).high
  level_lt_variableCount : ∀ r, s.Has r → r.isConstant = false →
    (s.node r).level < s.variableCount
  level_lt_low : ∀ r, s.Has r → r.isConstant = false → (s.node r).low.isConstant = false →
    (s.node r).level < (s.node (s.node r).low).level
  level_lt_high : ∀ r, s.Has r → r.isConstant = false → (s.node r).high.isConstant = false →
    (s.node r).level < (s.node (s.node r).high).level
  eq_of_node_eq : ∀ r q, s.Has r → s.Has q → r.isConstant = false → q.isConstant = false →
    s.node r = s.node q → r = q

theorem Store.Valid.canonical {s : Store} (hs : s.Valid) : s.Canonical where
  low_ne_high r h hr := (hs.proper r h hr).low_ne_high
  level_lt_variableCount r h hr := (hs.proper r h hr).level_lt
  level_lt_low r h hr := (hs.proper r h hr).low_startsAt
  level_lt_high r h hr := (hs.proper r h hr).high_startsAt
  eq_of_node_eq r q h k hr hq hnode := by
    -- the index finds both of them under the same node
    have hir := (hs.index_iff (s.node r) r).2 ⟨h, hr, rfl⟩
    have hiq := (hs.index_iff (s.node r) q).2 ⟨k, hq, hnode.symm⟩
    exact Option.some.inj (hir.symm.trans hiq)

namespace Session

/-- **Diagrams are canonical** at every moment of every session: the nodes are reduced, ordered and
different; what has been given out stays and keeps its function; diagrams are equal exactly when
their functions are; and a diagram is satisfiable exactly when some valuation satisfies it. -/
theorem handles_canonical (past future : List Request) (h : fresh.Allows (past ++ future)) :
    (fresh.serveAll past).store.Canonical ∧
      (∀ a ∈ (fresh.serveAll past).handles, a ∈ (fresh.serveAll (past ++ future)).handles ∧
        ∀ v, (fresh.serveAll (past ++ future)).store.eval a v =
          (fresh.serveAll past).store.eval a v) ∧
      (∀ a ∈ (fresh.serveAll past).handles, ∀ b ∈ (fresh.serveAll past).handles,
        a = b ↔ ∀ v, (fresh.serveAll past).store.eval a v = (fresh.serveAll past).store.eval b v) ∧
      ∀ a ∈ (fresh.serveAll past).handles,
        a.isSatisfiable = true ↔ ∃ v, (fresh.serveAll past).store.eval a v = true := by
  obtain ⟨hpast, hfuture⟩ := allows_append.1 h
  obtain ⟨hsound, -⟩ := sound_fresh.serveAll hpast
  obtain ⟨-, hwithin⟩ := hsound.serveAll hfuture
  rw [serveAll_append]
  have hs := hsound.reachable.valid
  refine ⟨hs.canonical, fun a ha => ⟨hwithin.handles_subset ha, ?_⟩, fun a ha b hb => ?_,
    fun a ha => (hsound.has a ha).denotes.isSatisfiable_iff hs⟩
  · exact hs.eval_of_le hwithin.store_le (hsound.has a ha)
  · exact ⟨fun hab _ => hab ▸ rfl, hs.eq_of_eval_eq (hsound.has a ha) (hsound.has b hb)⟩

/-- The requests for a variable, for its negation, and for the negation of that. -/
def doubleNegation (i : Nat) : List Request :=
  let literal := positive i .empty
  let negation := neg literal.1 literal.2
  [.build (.positive i), .build (.neg literal.1), .build (.neg negation.1)]

/-- The third diagram that `doubleNegation` gives out is the first one again. -/
theorem handles_canonical_doubleNegation :
    fresh.Allows (doubleNegation 0 ++ []) ∧
      ∃ a b, (fresh.serveAll (doubleNegation 0)).handles = [a, b, a, .bot, .top] := by
  have hallows : fresh.Allows (doubleNegation 0 ++ []) :=
    ⟨fun _ h => absurd h List.not_mem_nil,
      fun _ h => List.mem_singleton.1 h ▸ List.mem_cons_self,
      fun _ h => List.mem_singleton.1 h ▸ List.mem_cons_self, trivial⟩
  obtain ⟨-, -, heq, -⟩ := handles_canonical _ _ hallows
  let literal := positive 0 .empty
  let negation := neg literal.1 literal.2
  let again := neg negation.1 negation.2
  have hserved : fresh.serveAll (doubleNegation 0) =
      ⟨again.2, [again.1, negation.1, literal.1, .bot, .top]⟩ := rfl
  obtain ⟨hs₁, -, hliteral, -⟩ := yields_positive 0 Store.valid_empty
  obtain ⟨hs₂, hle₂, hnegation⟩ := yields_neg hliteral hs₁
  obtain ⟨-, hle₃, hagain⟩ := yields_neg hnegation hs₂
  have hsame : again.1 = literal.1 := by
    rw [hserved] at heq
    refine (heq _ (by simp) _ (by simp)).2 fun v => ?_
    rw [((hliteral.mono hs₁ hle₂).mono hs₂ hle₃).eval_eq, hagain.eval_eq, Bool.not_not]
  exact ⟨hallows, literal.1, negation.1, by rw [hserved, hsame]⟩

end Session
end Diagram
end RouteSolver
