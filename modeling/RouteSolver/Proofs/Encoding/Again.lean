/-
# Laying out again

The decoders are not given a layout, they lay the domain out once more. In every store that came
after the first time this gives the same layout and adds nothing, neither nodes nor variables
(`ofDomain_again`): each field names variables that have a diagram, and these are found
(`Store.LaysOut.positives_eq`).

The fields lie one after the other: their diagrams in a row are the variables of the route from 0 on
(`Over.laysOut_fields`).
-/

import RouteSolver.Proofs.Diagram.Composed
import RouteSolver.Proofs.Encoding.Layout

namespace RouteSolver

open Diagram

namespace Diagram

variable {s : Store} {xs : List Ref} {first count : Nat}

/-- Whatever the store is, the result of a computation is of this kind. -/
def Always {α : Type} (m : Build α) (p : α → Prop) : Prop := ∀ s, p (m.run s).1

theorem Always.bind {α β : Type} {m : Build α} {k : α → Build β} {p : α → Prop} {q : β → Prop}
    (hm : Always m p) (hk : ∀ a, p a → Always (k a) q) : Always (m >>= k) q := fun s =>
  hk _ (hm s) _

theorem Always.of_bind {α β : Type} {m : Build α} {k : α → Build β} {q : β → Prop}
    (hk : ∀ a, Always (k a) q) : Always (m >>= k) q := fun _ => hk _ _

/-- A computation that begins with one that changes nothing. -/
theorem run_bind_of_eq {α β : Type} {m : Build α} {k : α → Build β} {a : α} {y : β × Store}
    (hm : m.run s = (a, s)) (hk : (k a).run s = y) : (m >>= k).run s = y := by
  rw [StateT.run_bind, hm]
  exact hk

theorem mapM_positive_eq (hs : s.Valid) (is : List Nat)
    (hxs : s.DenoteAll xs (is.map fun i v => v i)) (his : ∀ i ∈ is, i < s.variableCount) :
    (is.mapM positive).run s = (xs, s) := by
  induction is generalizing xs with
  | nil =>
    cases hxs
    rfl
  | cons i is ih =>
    obtain ⟨x, rest, hx, hrest, rfl⟩ := List.forall₂_cons_right_iff.1 hxs
    obtain ⟨hi, his⟩ := List.forall_mem_cons.1 his
    rw [List.mapM_cons]
    exact run_bind_of_eq (hs.positive_eq hi hx) (run_bind_of_eq (ih hrest his) rfl)

namespace Store.LaysOut

/-- **Variables that have been laid out** are found again, and nothing is added. -/
theorem positives_eq (h : s.LaysOut xs first count) (hs : s.Valid) :
    ((List.range' first count).mapM positive).run s = (xs, s) :=
  mapM_positive_eq hs _ h.denoteAll fun i hi =>
    h.named i (List.mem_range'_1.1 hi).1 (List.mem_range'_1.1 hi).2

theorem bitVectorLayOut_eq {x : BitVector} (h : s.LaysOut x.bits first count) (hs : s.Valid) :
    (BitVector.layOut first count).run s = (x, s) :=
  run_bind_of_eq (h.positives_eq hs) rfl

theorem choiceLayOut_eq {α : Type} [DecidableEq α] {c : Choice α} {alternatives : List α}
    (h : s.LaysOut c.selectors first alternatives.length) (hs : s.Valid)
    (halternatives : c.alternatives = alternatives) :
    (Choice.layOut first alternatives c.fallback).run s = (c, s) := by
  subst halternatives
  exact run_bind_of_eq (h.positives_eq hs) rfl

theorem append {ys : List Ref} {more : Nat} (h : s.LaysOut xs first count)
    (k : s.LaysOut ys (first + count) more) : s.LaysOut (xs ++ ys) first (count + more) where
  denoteAll := by
    rw [consecutive, ← List.range'_append_1, List.map_append]
    exact List.rel_append h.denoteAll k.denoteAll
  named i hi hi' := by
    rcases Nat.lt_or_ge i (first + count) with hlt | hge
    · exact h.named i hi hlt
    · exact k.named i hge (by omega)

end Store.LaysOut

end Diagram

namespace Layout

variable {l : Layout} {d : Domain} {s t : Store}

theorem reaches_ofDomain (d : Domain) : Reaches (ofDomain d) := by
  rw [ofDomain]
  refine (Reaches.choiceLayOut _ _ _).bind fun _ => ?_
  iterate 8 refine (Reaches.bitVectorLayOut _ _).bind fun _ => ?_
  refine (Reaches.choiceLayOut _ _ _).bind fun _ => ?_
  iterate 5 refine (Reaches.positives _).bind fun _ => ?_
  exact .pure _

theorem reachable_of_ofDomain (hs : s.Reachable) (hl : (ofDomain d).run s = (l, t)) :
    t.Reachable := by
  have hreached := reaches_ofDomain d s hs
  rwa [hl] at hreached

/-- What `ofDomain` writes into a layout besides diagrams. -/
structure Marked (l : Layout) (d : Domain) : Prop where
  protocol_fallback : l.protocol.fallback = .bgp
  originType_fallback : l.originType.fallback = .igp
  variableCount_eq : l.variableCount = d.variableCount

theorem marked_ofDomain (d : Domain) : Always (ofDomain d) (·.Marked d) := by
  have hchoice : ∀ {α : Type} [DecidableEq α] (first : Nat) (alternatives : List α) (fallback : α),
      Always (Choice.layOut first alternatives fallback) (·.fallback = fallback) :=
    fun _ _ _ => .of_bind fun _ _ => rfl
  rw [ofDomain]
  refine (hchoice _ _ _).bind fun protocol hprotocol => ?_
  iterate 8 refine .of_bind fun _ => ?_
  refine (hchoice _ _ _).bind fun originType horiginType => ?_
  iterate 5 refine .of_bind fun _ => ?_
  exact fun _ => ⟨hprotocol, horiginType, rfl⟩

/-- A layout whose variables all have their diagrams is made again. -/
theorem Over.ofDomain_eq (h : l.Over d s) (hs : s.Valid) (hl : l.Marked d) :
    (ofDomain d).run s = (l, s) := by
  obtain ⟨hbgp, higp, hcount⟩ := hl
  have hprotocol := h.protocol.choiceLayOut_eq hs h.protocol_alternatives
  have horiginType := h.originType.choiceLayOut_eq hs h.originType_alternatives
  rw [hbgp] at hprotocol
  rw [higp] at horiginType
  rw [ofDomain]
  refine run_bind_of_eq hprotocol ?_
  refine run_bind_of_eq (h.address.bitVectorLayOut_eq hs) ?_
  refine run_bind_of_eq (h.length.bitVectorLayOut_eq hs) ?_
  refine run_bind_of_eq (h.localPreference.bitVectorLayOut_eq hs) ?_
  refine run_bind_of_eq (h.adminDistance.bitVectorLayOut_eq hs) ?_
  refine run_bind_of_eq (h.metric.bitVectorLayOut_eq hs) ?_
  refine run_bind_of_eq (h.tag.bitVectorLayOut_eq hs) ?_
  refine run_bind_of_eq (h.nextHop.bitVectorLayOut_eq hs) ?_
  refine run_bind_of_eq (h.clusterListLength.bitVectorLayOut_eq hs) ?_
  refine run_bind_of_eq horiginType ?_
  refine run_bind_of_eq (h.communities.positives_eq hs) ?_
  refine run_bind_of_eq (h.asPaths.positives_eq hs) ?_
  refine run_bind_of_eq (h.tracks.positives_eq hs) ?_
  refine run_bind_of_eq (h.sourceVrfs.positives_eq hs) ?_
  refine run_bind_of_eq (h.nextHopInterfaces.positives_eq hs) ?_
  -- all fields are those of the layout, the number of variables by what it is marked with
  cases l
  cases hcount
  rfl

/-! ### The fields in a row -/

/-- The diagrams of the fields, in the order in which they are laid out. -/
def fields (l : Layout) : List (List Ref) :=
  [l.protocol.selectors, l.address.bits, l.length.bits, l.localPreference.bits,
    l.adminDistance.bits, l.metric.bits, l.tag.bits, l.nextHop.bits, l.clusterListLength.bits,
    l.originType.selectors, l.communities, l.asPaths, l.tracks, l.sourceVrfs, l.nextHopInterfaces]

theorem Over.map_length_fields (h : l.Over d s) : l.fields.map List.length = widths d := by
  simp only [fields, widths, List.map_cons, List.map_nil, h.protocol.length_eq,
    h.address.length_eq, h.length.length_eq, h.localPreference.length_eq,
    h.adminDistance.length_eq, h.metric.length_eq, h.tag.length_eq, h.nextHop.length_eq,
    h.clusterListLength.length_eq, h.originType.length_eq, h.communities.length_eq,
    h.asPaths.length_eq, h.tracks.length_eq, h.sourceVrfs.length_eq, h.nextHopInterfaces.length_eq]

/-- **The fields in a row** are the variables of the route, each of them once. -/
theorem Over.laysOut_fields (h : l.Over d s) : s.LaysOut l.fields.flatten 0 d.variableCount := by
  rw [← sum_widths, fields, widths]
  have hnone : s.LaysOut [] d.variableCount 0 := ⟨.nil, fun i hi hi' => by omega⟩
  exact h.protocol.append <| h.address.append <| h.length.append <| h.localPreference.append <|
    h.adminDistance.append <| h.metric.append <| h.tag.append <| h.nextHop.append <|
    h.clusterListLength.append <| h.originType.append <| h.communities.append <|
    h.asPaths.append <| h.tracks.append <| h.sourceVrfs.append <|
    h.nextHopInterfaces.append hnone

/-! ### Once more -/

/-- **Laying a domain out again** in a later store gives the same layout and adds nothing. -/
theorem ofDomain_again (hs : s.Valid) (hl : (ofDomain d).run s = (l, t)) {u : Store} (htu : t ≤ u)
    (hu : u.Valid) : (ofDomain d).run u = (l, u) := by
  obtain ⟨ht, -, hover⟩ := (yields_ofDomain d).of_run hs hl
  have hmarked : ((ofDomain d).run s).1.Marked d := marked_ofDomain d s
  rw [hl] at hmarked
  exact (hover.mono ht htu).ofDomain_eq hu hmarked

end Layout
end RouteSolver
