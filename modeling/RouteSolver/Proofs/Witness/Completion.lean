/-
# A model and its completion

A cube leaves variables open, and completing it makes them false. The decoders read an open variable
as false: they ask what the cube entails, and that is what its filling makes true. So decoding is a
function of the filling alone (`route_congr`, `environment_congr`), also where the filling is not
well formed and a choice falls back to its default (`choiceValueUnder_congr`).

The filling of a cube is its least model, which completing keeps, and the path cube and the least
model of a diagram have the same filling. Hence a partial model and its completion are decoded alike
(`leastModel_decodedAlike`), with the same failures.
-/

import RouteSolver.Proofs.Diagram.Reachable
import RouteSolver.Proofs.Encoding.Again
import RouteSolver.Proofs.Witness.Nameless
import RouteSolver.Proofs.Witness.Outcome

namespace RouteSolver
namespace Decoding

open Diagram

/-! ### Decoding reads the filling -/

section
variable {d : Domain} {v : Valuation} {s t : Store} {l k : Layout} {m n : Ref} {p q : Assignment}

/-- **A choice** is read off the filling, whether one alternative is marked there or not. -/
theorem choiceValueUnder_congr {α : Type} {c c' : Choice α} {first count : Nat} (hs : s.Valid)
    (ht : t.Valid) (hm : s.IsCube m p) (hn : t.IsCube n q) (hfill : q.fill = p.fill)
    (hc : s.LaysOut c.selectors first count) (hc' : t.LaysOut c'.selectors first count)
    (halternatives : c.alternatives = c'.alternatives) (hfallback : c.fallback = c'.fallback) :
    c.valueUnder s m = c'.valueUnder t n := by
  rw [choiceValueUnder_eq_find, choiceValueUnder_eq_find, map_entails hs hm hc,
    map_entails ht hn hc', hfill, halternatives, hfallback]

theorem routeOver_congr_of_marked (h : Carries d v s l m) (h' : Carries d v t k n)
    (hl : l.Marked d) (hk : k.Marked d) : routeOver s m l d = routeOver t n k d := by
  obtain ⟨p, hm, rfl⟩ := h.exists_cube
  obtain ⟨q, hn, hfill⟩ := h'.exists_cube
  refine routeOver_congr_of_choices h h' ?_ ?_
  · exact choiceValueUnder_congr h.valid h'.valid hm hn hfill h.lays.protocol h'.lays.protocol
      (h.lays.protocol_alternatives.trans h'.lays.protocol_alternatives.symm)
      (hl.protocol_fallback.trans hk.protocol_fallback.symm)
  · exact choiceValueUnder_congr h.valid h'.valid hm hn hfill h.lays.originType
      h'.lays.originType (h.lays.originType_alternatives.trans h'.lays.originType_alternatives.symm)
      (hl.originType_fallback.trans hk.originType_fallback.symm)

/-- The decoders of a cube lay the domain out, and carry on with the filling. -/
theorem yields_carries (hm : s.IsCube m p) (d : Domain) :
    Yields s (Layout.ofDomain d) fun l t => Carries d p.fill t l m ∧ l.Marked d := by
  refine .of_valid fun hs => (Layout.yields_ofDomain d).result.mono fun l t hst ht hl => ?_
  obtain ⟨hrun, hover⟩ := hl
  exact ⟨⟨ht, hover, p, hm.mono hs hst, rfl⟩, hrun ▸ Layout.marked_ofDomain d s⟩

theorem yields_routeOver (hm : s.IsCube m p) (d : Domain) : Yields s (route m d) fun x t =>
    ∃ l, Carries d p.fill t l m ∧ l.Marked d ∧ x = routeOver t m l d :=
  (yields_carries hm d).bind fun l _ _ _ h => .get fun _ => .pure fun _ => ⟨l, h.1, h.2, rfl⟩

theorem yields_environmentOver (hm : s.IsCube m p) (d : Domain) :
    Yields s (environment m d) fun x t =>
      ∃ l, Carries d p.fill t l m ∧ x = environmentOver t m l d :=
  (yields_carries hm d).bind fun l _ _ _ h => .get fun _ => .pure fun _ => ⟨l, h.1, rfl⟩

variable (hs : s.Valid) (ht : t.Valid) (hm : s.IsCube m p) (hn : t.IsCube n q)
  (hfill : q.fill = p.fill)
include hs ht hm hn hfill

/-- **Cubes with one filling** are decoded to one route, or fail in one way. -/
theorem route_congr (d : Domain) : ((route m d).run s).1 = ((route n d).run t).1 := by
  obtain ⟨l, h, hl, hx⟩ := (yields_routeOver hm d).post_run hs
  obtain ⟨k, h', hk, hy⟩ := (yields_routeOver hn d).post_run ht
  rw [hx, hy]
  exact routeOver_congr_of_marked h (hfill ▸ h') hl hk

/-- **Cubes with one filling** are decoded to one environment, or fail in one way. -/
theorem environment_congr (d : Domain) :
    ((environment m d).run s).1 = ((environment n d).run t).1 := by
  obtain ⟨l, h, hx⟩ := (yields_environmentOver hm d).post_run hs
  obtain ⟨k, h', hy⟩ := (yields_environmentOver hn d).post_run ht
  rw [hx, hy]
  exact environmentOver_congr h (hfill ▸ h')

end

/-! ### Completions -/

/-- From two stores on, whatever happens next in each, two models are decoded to the same route and
to the same environment, or fail in the same way. -/
def DecodedAlike (d : Domain) (s : Store) (m : Ref) (t : Store) (n : Ref) : Prop :=
  ∀ s' t', s ≤ s' → t ≤ t' → s'.Reachable → t'.Reachable →
    ((route m d).run s').1 = ((route n d).run t').1 ∧
    ((environment m d).run s').1 = ((environment n d).run t').1

section
variable {s t : Store} {m n : Ref} {p q : Assignment}

theorem DecodedAlike.of_fill (d : Domain) (hs : s.Valid) (ht : t.Valid) (hm : s.IsCube m p)
    (hn : t.IsCube n q) (hfill : q.fill = p.fill) : DecodedAlike d s m t n :=
  fun _ _ hss' htt' hs' ht' =>
    have hm' := hm.mono hs hss'
    have hn' := hn.mono ht htt'
    ⟨route_congr hs'.valid ht'.valid hm' hn' hfill d,
      environment_congr hs'.valid ht'.valid hm' hn' hfill d⟩

/-- **The completion of a model** is a cube with the least model as its filling. -/
theorem yields_filled {r : Ref} {f : Valuation → Bool} {w : Valuation} (h : s.Denotes r f)
    (hw : IsLeastModel f w) :
    Yields s (leastModel r) fun m t => ∃ p, t.IsCube m p ∧ p.fill = w := by
  refine (yields_completeModel h ⟨w, hw.holds⟩).mono fun m t _ _ hm => ?_
  obtain ⟨_, hcube, hleast, -⟩ := hm
  exact ⟨_, hcube, hleast.unique hw⟩

/-- **A model and its completion are decoded alike**: in any reachable store, and over any domain, a
cube and its completion, and the path cube and the least model of a satisfiable diagram, also when
the two are built in different stores. -/
theorem leastModel_decodedAlike (hs : s.Reachable) (d : Domain) :
    (∀ m p, s.IsCube m p →
      DecodedAlike d s m ((leastModel m).run s).2 ((leastModel m).run s).1) ∧
    ∀ r, s.Has r → r.isSatisfiable = true → ∀ t u, s ≤ t → s ≤ u → t.Reachable → u.Reachable →
      DecodedAlike d ((pathCube r).run t).2 ((pathCube r).run t).1
        ((leastModel r).run u).2 ((leastModel r).run u).1 := by
  constructor
  · intro m p hm
    obtain ⟨ht, -, q, hn, hfill⟩ :=
      yields_filled hm.has.denotes hm.isLeastModel_fill hs.valid
    exact .of_fill d hs.valid ht hm hn hfill
  · intro r hr hsat t u hst hsu ht hu
    have hbot : r ≠ .bot := by rwa [Ref.isSatisfiable, decide_eq_true_iff] at hsat
    have hden := hr.denotes
    obtain ⟨ht', -, p, hm, hleast, -⟩ :=
      yields_leastPathCube (hden.mono hs.valid hst) hbot ht.valid
    obtain ⟨hu', -, q, hn, hfill⟩ := yields_filled (hden.mono hs.valid hsu) hleast hu.valid
    exact .of_fill d ht' hu' hm hn hfill

/-- Variable 5 alone marks a protocol and leaves all other fields open. Its path cube is decoded as
the completion of that cube is, and as the least model of the variable is. -/
theorem leastModel_decodedAlike_positive :
    ∃ (s t : Store) (r m : Ref) (p : Assignment), s.Reachable ∧ s.Has r ∧
      r.isSatisfiable = true ∧ (pathCube r).run s = (m, t) ∧ t.Reachable ∧ t.IsCube m p ∧
      DecodedAlike .nameless t m ((leastModel m).run t).2 ((leastModel m).run t).1 ∧
      DecodedAlike .nameless t m ((leastModel r).run s).2 ((leastModel r).run s).1 := by
  rcases hr : (positive 5).run .empty with ⟨r, s⟩
  obtain ⟨hvalid, -, hden, -⟩ := (yields_positive 5).of_run Store.valid_empty hr
  have hs : s.Reachable := by
    have hstep : ((positive 5).run .empty).2.Reachable :=
      .step (.positive 5) .empty fun _ h => absurd h List.not_mem_nil
    rwa [hr] at hstep
  have hsat : r.isSatisfiable = true := (hden.isSatisfiable_iff hvalid).2 ⟨fun _ => true, rfl⟩
  rcases hm : (pathCube r).run s with ⟨m, t⟩
  have ht : t.Reachable := by
    have hstep : ((pathCube r).run s).2.Reachable :=
      .step (.pathCube r) hs (List.forall_mem_singleton.2 hden.has)
    rwa [hm] at hstep
  have hbot : r ≠ .bot := by rwa [Ref.isSatisfiable, decide_eq_true_iff] at hsat
  obtain ⟨-, -, p, hcube, -⟩ := (yields_leastPathCube hden hbot).of_run hvalid hm
  have hleast := (leastModel_decodedAlike hs .nameless).2 r hden.has hsat s s le_rfl le_rfl hs hs
  rw [hm] at hleast
  exact ⟨s, t, r, m, p, hs, hden.has, hsat, hm, ht, hcube,
    (leastModel_decodedAlike ht .nameless).1 m p hcube, hleast⟩

end

end Decoding
end RouteSolver
