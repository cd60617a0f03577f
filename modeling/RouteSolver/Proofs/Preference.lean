/-
# Granting wishes

The formula of a wish says of a valuation what the wish asks for (`Wish.asks`, `yields_wish`).
Granting wishes one by one is greedy: a wish is granted exactly when what holds already leaves room
for it (`Granted`). Whatever is granted, the result entails the formula that was to be satisfied,
and it stays satisfiable if that was; so `steer` finds a model of every satisfiable formula
(`yields_leastSteer`).
-/

import RouteSolver.Preference
import RouteSolver.Proofs.Diagram.Model
import RouteSolver.Proofs.Encoding.Layout

namespace RouteSolver

open Diagram
open Layout (protocolStart addressStart lengthStart lengthWidth localPreferenceStart)

/-! ### What a wish asks for -/

namespace Wish

/-- The blocks of the prefix are those of the network. -/
def prefixIs (v : Valuation) (n : Network) : Bool :=
  decide (Bits.value (block v addressStart 32) = n.first.toNat) &&
    decide (Bits.value (block v lengthStart lengthWidth) = n.length)

/-- What a wish asks of a valuation. -/
def asks (v : Valuation) : Wish → Bool
  | protocol p => decide (block v protocolStart Protocol.all.length = oneHot Protocol.all p)
  | localPreference n => decide (Bits.value (block v localPreferenceStart 32) = n.toNat)
  | prefixIn networks => networks.any (prefixIs v)
  | prefixAtLeast address length =>
    decide (address.toNat ≤ Bits.value (block v addressStart 32)) &&
      decide (length.toNat ≤ Bits.value (block v lengthStart lengthWidth))

end Wish

section
variable {d : Domain} {l : Layout} {s : Store} {r : Ref} {f : Valuation → Bool}

theorem yields_isPrefix (hl : l.Over d s) (n : Network) :
    Yields s (Wish.isPrefix l n) fun q t => t.Denotes q (Wish.prefixIs · n) := by
  rw [Wish.isPrefix]
  refine .of_valid fun hs => (yields_eq hl.address.denoteAll _).bind fun a t hst ht ha => ?_
  refine (yields_eq (hl.length.mono hs hst).denoteAll _).bind fun b u htu _ hb => ?_
  refine (yields_conj (ha.mono ht htu) hb).mono fun q _ _ _ hq => hq.congr fun v => ?_
  rw [values_consecutive, values_consecutive, Wish.prefixIs]

/-- **The formula of a wish** says what the wish asks for. -/
theorem yields_wish (hl : l.Over d s) (w : Wish) :
    Yields s (w.formula l) fun q t => t.Denotes q w.asks := by
  cases w with
  | protocol p =>
    have hlen : (consecutive protocolStart Protocol.all.length).length =
        l.protocol.alternatives.length := by
      rw [length_consecutive, hl.protocol_alternatives]
    refine (yields_choiceEq hl.protocol.denoteAll hlen
      (hl.protocol_alternatives ▸ (by decide : Protocol.all.Nodup))
      (hl.protocol_alternatives ▸ p.mem_all)).mono fun q _ _ _ hq => hq.congr fun v => ?_
    rw [values_consecutive, hl.protocol_alternatives, Wish.asks]
  | localPreference n =>
    refine (yields_eq hl.localPreference.denoteAll _).mono fun q _ _ _ hq => hq.congr fun v => ?_
    rw [values_consecutive, Wish.asks]
  | prefixIn networks =>
    rw [Wish.formula]
    refine .of_valid fun hs => (Yields.mapM (fun n _ t ht => yields_isPrefix (hl.mono hs ht) n)
      fun n q t u ht htu hq => hq.mono ht htu).bind fun qs t _ _ hqs => ?_
    have hall : t.DenoteAll qs (networks.map fun n v => Wish.prefixIs v n) :=
      List.forall₂_map_right_iff.2 hqs.flip
    refine (yields_disjAll hall).mono fun q _ _ _ hq => hq.congr fun v => ?_
    rw [List.any_map, Wish.asks]
    rfl
  | prefixAtLeast address length =>
    rw [Wish.formula]
    refine .of_valid fun hs => (yields_ge hl.address.denoteAll _).bind fun a t hst ht ha => ?_
    refine (yields_ge (hl.length.mono hs hst).denoteAll _).bind fun b u htu _ hb => ?_
    refine (yields_conj (ha.mono ht htu) hb).mono fun q _ _ _ hq => hq.congr fun v => ?_
    rw [values_consecutive, values_consecutive, Wish.asks]

/-! ### Granting -/

/-- From what holds already, the wishes lead to what holds in the end, and to those among them that
have been granted. -/
inductive Granted : (Valuation → Bool) → List Wish → (Valuation → Bool) → List Wish → Prop
  | nil (f : Valuation → Bool) : Granted f [] f []
  | grant {f g : Valuation → Bool} {w : Wish} {ws granted : List Wish}
    (hroom : ∃ v, (f v && w.asks v) = true)
    (hrest : Granted (fun v => f v && w.asks v) ws g granted) :
    Granted f (w :: ws) g (w :: granted)
  | refuse {f g : Valuation → Bool} {w : Wish} {ws granted : List Wish}
    (hroom : ¬∃ v, (f v && w.asks v) = true) (hrest : Granted f ws g granted) :
    Granted f (w :: ws) g granted

namespace Granted

variable {g : Valuation → Bool} {ws granted : List Wish}

/-- What holds already still holds in the end. -/
theorem entails (h : Granted f ws g granted) {v : Valuation} (hv : g v = true) : f v = true := by
  induction h with
  | nil f => exact hv
  | grant _ _ ih => exact (Bool.and_eq_true_iff.1 (ih hv)).1
  | refuse _ _ ih => exact ih hv

/-- **Granting comes to one result.** -/
theorem unique (h : Granted f ws g granted) {g' : Valuation → Bool} {granted' : List Wish}
    (h' : Granted f ws g' granted') : g = g' ∧ granted = granted' := by
  induction h generalizing granted' with
  | nil f =>
    cases h'
    exact ⟨rfl, rfl⟩
  | grant hroom _ ih =>
    cases h' with
    | grant _ hrest =>
      obtain ⟨rfl, rfl⟩ := ih hrest
      exact ⟨rfl, rfl⟩
    | refuse hnone _ => exact absurd hroom hnone
  | refuse hnone _ ih =>
    cases h' with
    | grant hroom _ => exact absurd hroom hnone
    | refuse _ hrest => exact ih hrest

/-- What can hold at the beginning can hold in the end. -/
theorem satisfiable (h : Granted f ws g granted) (hf : ∃ v, f v = true) : ∃ v, g v = true := by
  induction h with
  | nil f => exact hf
  | grant hroom _ ih => exact ih hroom
  | refuse _ _ ih => exact ih hf

end Granted

/-- **Granting is greedy.** -/
theorem yields_grant (hl : l.Over d s) (h : s.Denotes r f) (ws : List Wish) :
    Yields s (grant l r ws) fun x t => ∃ g, t.Denotes x.1 g ∧ Granted f ws g x.2 := by
  induction ws generalizing s r f with
  | nil => exact .pure fun _ => ⟨f, h, .nil f⟩
  | cons w ws ih =>
    rw [grant]
    refine .of_valid fun hs => (yields_wish hl w).bind fun q t hst ht hq => ?_
    refine (yields_conj (h.mono hs hst) hq).bind fun n u htu hu hn => ?_
    have hlu := (hl.mono hs hst).mono ht htu
    split
    · rename_i hsat
      have hroom := (hn.isSatisfiable_iff hu).1 hsat
      refine (ih hlu hn).bind fun x _ _ _ hx => .pure fun _ => ?_
      obtain ⟨g, hg, hgranted⟩ := hx
      exact ⟨g, hg, .grant hroom hgranted⟩
    · rename_i hsat
      have hroom := fun hv => hsat ((hn.isSatisfiable_iff hu).2 hv)
      refine (ih hlu ((h.mono hs hst).mono ht htu)).mono fun x _ _ _ hx => ?_
      obtain ⟨g, hg, hgranted⟩ := hx
      exact ⟨g, hg, .refuse hroom hgranted⟩

/-- **Steering grants greedily** and completes what holds then: the model fixes every variable that
has been named, to what it is in the least valuation that does what has been granted. -/
theorem yields_leastSteer (h : s.Denotes r f) (hf : ∃ v, f v = true) (d : Domain)
    (p : Preferences) : Yields s (steer d p r) fun x t => ∃ picked ∈ x, ∃ g w,
      Granted f p.wishes g picked.granted ∧
      t.IsCube picked.model (.below t.variableCount w) ∧
      IsLeastModel g (Assignment.below t.variableCount w).fill ∧
      ∀ v, (Assignment.below t.variableCount w).Admits v → g v = true := by
  refine .of_valid fun hs => ?_
  rw [steer, (h.isSatisfiable_iff hs).2 hf]
  refine (Layout.yields_ofDomain d).bind fun l t hst ht hl => ?_
  refine (yields_grant hl (h.mono hs hst) _).bind fun x u _ _ hx => ?_
  obtain ⟨g, hg, hgranted⟩ := hx
  refine (yields_completeModel hg (hgranted.satisfiable hf)).bind fun m _ _ _ hm =>
    .pure fun _ => ?_
  obtain ⟨w, hcube, hleast, hw⟩ := hm
  exact ⟨_, rfl, g, w, hgranted, hcube, hleast, hw⟩

/-- The model makes true what the granted wishes lead to. -/
theorem yields_greedySteer (h : s.Denotes r f) (hf : ∃ v, f v = true) (d : Domain)
    (p : Preferences) : Yields s (steer d p r) fun x t => ∃ picked ∈ x, ∃ g w,
      Granted f p.wishes g picked.granted ∧
      t.IsCube picked.model (.below t.variableCount w) ∧
      ∀ v, (Assignment.below t.variableCount w).Admits v → g v = true := by
  refine (yields_leastSteer h hf d p).mono fun x t _ _ hx => ?_
  obtain ⟨picked, hpicked, g, w, hgranted, hcube, -, hw⟩ := hx
  exact ⟨picked, hpicked, g, w, hgranted, hcube, hw⟩

end

end RouteSolver
