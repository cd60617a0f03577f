/-
# What a search comes to

Two runs of a search build different diagrams in different stores, but nothing of that can be seen
in the answer: it is settled by what the scenario asks of valuations and by the wishes that count
(`Outcome.unique`). Either no valuation does what is asked; or granting the wishes one by one leads
to one function, that function has one least model, and decoding that model gives one result, in
whatever store it lies (`Decodes.unique`). Every search comes to such an outcome
(`yields_searchOver_outcome`); this is the only place where a run is followed. What is said of
answers elsewhere rests on the outcome, and on what a well-formed model is decoded to: a witness
that encodes to it (`Decodes.encodes`), or an unreadable text (`Decodes.cases`).
-/

import RouteSolver.Proofs.Constraint.Truth
import RouteSolver.Proofs.Preference
import RouteSolver.Proofs.Witness.Failures
import RouteSolver.Witness.Search

namespace RouteSolver

open Diagram

/-! ### Decoding depends on the model alone -/

namespace Decoding

/-- The store carries a layout of the domain, and a cube that the valuation fills. -/
structure Carries (d : Domain) (v : Valuation) (s : Store) (l : Layout) (m : Ref) : Prop where
  valid : s.Valid
  lays : l.Over d s
  exists_cube : ∃ p, s.IsCube m p ∧ p.fill = v

section
variable {d : Domain} {v : Valuation} {s t : Store} {l k : Layout} {m n : Ref}
  (h : Carries d v s l m) (h' : Carries d v t k n)
include h h'

theorem communities_congr : communities s m l d = communities t n k d := by
  obtain ⟨hs, hl, p, hm, rfl⟩ := h
  obtain ⟨ht, hk, q, hn, hq⟩ := h'
  rw [communities, communities]
  simp only [held_standardCommunities hs hl hm, held_standardCommunities ht hk hn,
    heldFrom_otherCommunities hs hl hm, heldFrom_otherCommunities ht hk hn, hq]

theorem asPath_congr : asPath s m l d = asPath t n k d := by
  obtain ⟨hs, hl, p, hm, rfl⟩ := h
  obtain ⟨ht, hk, q, hn, hq⟩ := h'
  have hle : d.asPaths.parts.length ≤ d.asPaths.size := Nat.le_refl _
  rw [asPath, asPath]
  simp only [held_eq hs hm .asPath hl.asPaths hle, held_eq ht hn .asPath hk.asPaths hle, hq]

theorem nextHop_congr : nextHop s m l d = nextHop t n k d := by
  obtain ⟨hs, hl, p, hm, rfl⟩ := h
  obtain ⟨ht, hk, q, hn, hq⟩ := h'
  rw [nextHop, nextHop]
  simp only [held_eq hs hm .nextHopInterface hl.nextHopInterfaces (Nat.le_refl _),
    held_eq ht hn .nextHopInterface hk.nextHopInterfaces (Nat.le_refl _),
    valueUnder_eq hs hm hl.nextHop, valueUnder_eq ht hn hk.nextHop, hq]

theorem environmentOver_congr : environmentOver s m l d = environmentOver t n k d := by
  obtain ⟨hs, hl, p, hm, rfl⟩ := h
  obtain ⟨ht, hk, q, hn, hq⟩ := h'
  rw [environmentOver, environmentOver]
  simp only [held_eq hs hm .sourceVrf hl.sourceVrfs (Nat.le_refl _),
    held_eq ht hn .sourceVrf hk.sourceVrfs (Nat.le_refl _),
    entailedItems_eq hs hm d.tracks hl.tracks, entailedItems_eq ht hn d.tracks hk.tracks, hq]

/-- The route is decoded in the same way if the two choices are. -/
theorem routeOver_congr_of_choices
    (hprotocol : l.protocol.valueUnder s m = k.protocol.valueUnder t n)
    (horiginType : l.originType.valueUnder s m = k.originType.valueUnder t n) :
    routeOver s m l d = routeOver t n k d := by
  have hcommunities := communities_congr h h'
  have hasPath := asPath_congr h h'
  have hnextHop := nextHop_congr h h'
  obtain ⟨hs, hl, p, hm, rfl⟩ := h
  obtain ⟨ht, hk, q, hn, hq⟩ := h'
  rw [routeOver, routeOver]
  simp only [word32, hcommunities, hasPath, hnextHop, hprotocol, horiginType,
    valueUnder_eq hs hm hl.address, valueUnder_eq hs hm hl.length,
    valueUnder_eq hs hm hl.localPreference, valueUnder_eq hs hm hl.adminDistance,
    valueUnder_eq hs hm hl.metric, valueUnder_eq hs hm hl.tag,
    valueUnder_eq hs hm hl.clusterListLength, valueUnder_eq ht hn hk.address,
    valueUnder_eq ht hn hk.length, valueUnder_eq ht hn hk.localPreference,
    valueUnder_eq ht hn hk.adminDistance, valueUnder_eq ht hn hk.metric,
    valueUnder_eq ht hn hk.tag, valueUnder_eq ht hn hk.clusterListLength, hq]

/-- **A well-formed model** is decoded in the same way wherever it lies. -/
theorem routeOver_congr (hwf : Layout.WellFormed d v) :
    routeOver s m l d = routeOver t n k d := by
  obtain ⟨protocol, hprotocol⟩ := hwf.exists_protocol
  obtain ⟨originType, horigin⟩ := hwf.exists_originType
  have hread : ∀ {s : Store} {l : Layout} {m : Ref}, Carries d v s l m →
      l.protocol.valueUnder s m = protocol ∧ l.originType.valueUnder s m = originType := by
    rintro s l m ⟨hs, hl, p, hm, rfl⟩
    exact ⟨choiceValueUnder_eq hs hm hl.protocol (hl.protocol_alternatives ▸ protocol.mem_all)
        (hl.protocol_alternatives ▸ hprotocol),
      choiceValueUnder_eq hs hm hl.originType (hl.originType_alternatives ▸ originType.mem_all)
        (hl.originType_alternatives ▸ horigin)⟩
  exact routeOver_congr_of_choices h h' ((hread h).1.trans (hread h').1.symm)
    ((hread h).2.trans (hread h').2.symm)

end

end Decoding

/-! ### Outcomes -/

namespace Witness

/-- The answer that is put together from a decoded route and a decoded environment. -/
def assemble (granted : List Wish) (route : Except DecodeError Route)
    (environment : Except DecodeError Environment) : Except SearchError Witness :=
  match route, environment with
  | .error e, _ => .error (.decode e)
  | .ok _, .error e => .error (.decode e)
  | .ok r, .ok e => .ok ⟨r, e, granted⟩

/-- The valuation, as a model, is decoded to this result. -/
def Decodes (d : Domain) (v : Valuation) (granted : List Wish) (x : Except SearchError Witness) :
    Prop :=
  ∃ s l m, Decoding.Carries d v s l m ∧
    x = assemble granted (Decoding.routeOver s m l d) (Decoding.environmentOver s m l d)

/-- **A well-formed model** is decoded to one result. -/
theorem Decodes.unique {d : Domain} {v : Valuation} {granted : List Wish}
    {x y : Except SearchError Witness} (hwf : Layout.WellFormed d v) (hx : Decodes d v granted x)
    (hy : Decodes d v granted y) : x = y := by
  obtain ⟨s, l, m, h, rfl⟩ := hx
  obtain ⟨t, k, n, h', rfl⟩ := hy
  rw [Decoding.routeOver_congr h h' hwf, Decoding.environmentOver_congr h h']

/-- **What a well-formed model is decoded to** encodes to the model again, host bits of the prefix
apart. -/
theorem Decodes.encodes {d : Domain} {v : Valuation} {granted : List Wish} {w : Witness}
    (h : Decodes d v granted (.ok w)) (hd : d.Valid) (hwf : Layout.WellFormed d v) :
    w.granted = granted ∧ w.route.clusterList.size ≤ 255 ∧
      (∀ hop ∈ w.route.asPath.hops, hop.isSingle = true) ∧
      ∃ n : Network, w.route.network = n.truncate ∧
        Encodes d { w.route with network := n } w.environment v := by
  obtain ⟨s, l, m, ⟨hs, hl, p, hm, rfl⟩, hw⟩ := h
  cases hr : Decoding.routeOver s m l d with
  | error e =>
    rw [hr, assemble] at hw
    cases hw
  | ok r =>
    obtain ⟨e, he⟩ := Decoding.exists_environmentOver hd hwf hs hl hm
    rw [hr, he, assemble] at hw
    cases hw
    obtain ⟨n, hn, henc, hclusters, hsingle⟩ :=
      Decoding.encodes_of_decode hd hwf hs hl hm hr hs hl hm he
    exact ⟨rfl, hclusters, hsingle, n, hn, henc⟩

/-- **A well-formed model is decoded**, or it holds a class whose text writes no value. -/
theorem Decodes.cases {d : Domain} {v : Valuation} {granted : List Wish}
    {x : Except SearchError Witness} (h : Decodes d v granted x) (hd : d.Valid)
    (hwf : Layout.WellFormed d v) :
    (d.ReadableAt v ∧ ∃ w, x = .ok w ∧ w.granted = granted) ∨
      (¬d.ReadableAt v ∧ ∃ e, x = .error (.decode e) ∧ e.Unreadable) := by
  obtain ⟨s, l, m, ⟨hs, hl, p, hm, rfl⟩, rfl⟩ := h
  rw [← Decoding.exists_routeOver_iff hd hwf hs hl hm]
  obtain ⟨environment, he⟩ := Decoding.exists_environmentOver hd hwf hs hl hm
  rw [he]
  cases hr : Decoding.routeOver s m l d with
  | ok r => exact .inl ⟨⟨r, rfl⟩, _, rfl, rfl⟩
  | error e =>
    refine .inr ⟨?_, e, rfl, Decoding.failsOnly_routeOver hd hs hl hm hwf e hr⟩
    simp only [reduceCtorEq, exists_false, not_false_eq_true]

/-- What a search comes to that asks for `f` and has some wishes. -/
inductive Outcome (d : Domain) (f : Valuation → Bool) (wishes : List Wish) :
    Except SearchError Witness → Prop
  | unsatisfiable (h : ∀ v, f v = false) : Outcome d f wishes (.error .unsatisfiable)
  | decoded {g : Valuation → Bool} {granted : List Wish} {v : Valuation}
    {x : Except SearchError Witness} (hg : Granted f wishes g granted) (hv : IsLeastModel g v)
    (hx : Decodes d v granted x) : Outcome d f wishes x

/-- **A search comes to one outcome**, if only well-formed valuations do what is asked. -/
theorem Outcome.unique {d : Domain} {f : Valuation → Bool} {wishes : List Wish}
    {x y : Except SearchError Witness} (hwf : ∀ v, f v = true → Layout.WellFormed d v)
    (hx : Outcome d f wishes x) (hy : Outcome d f wishes y) : x = y := by
  have hsat : ∀ {g granted v}, Granted f wishes g granted → IsLeastModel g v → f v = true :=
    fun hg hv => hg.entails hv.holds
  cases hx with
  | unsatisfiable hno =>
    cases hy with
    | unsatisfiable _ => rfl
    | decoded hg hv _ => exact Bool.noConfusion ((hno _).symm.trans (hsat hg hv))
  | decoded hg hv hx =>
    cases hy with
    | unsatisfiable hno => exact Bool.noConfusion ((hno _).symm.trans (hsat hg hv))
    | decoded hg' hv' hy =>
      obtain ⟨rfl, rfl⟩ := hg.unique hg'
      obtain rfl := hv.unique hv'
      exact hx.unique (hwf _ (hsat hg hv)) hy

/-! ### Runs of a search -/

/-- The wishes that count. -/
def wishesOf (sc : Scenario) (steered : Bool) : List Wish :=
  if steered then sc.preferences.wishes else []

section
variable {d : Domain} {s : Store} {r : Ref} {f : Valuation → Bool}

/-- **Picking a model** grants the wishes that count and takes the least model of what they lead
to. -/
theorem yields_leastPick (h : s.Denotes r f) (hf : ∃ v, f v = true) (sc : Scenario)
    (steered : Bool) :
    Yields s (pickModel d (if steered then some sc.preferences else none) r) fun x t =>
      ∃ picked ∈ x, ∃ g p, Granted f (wishesOf sc steered) g picked.granted ∧
        t.IsCube picked.model p ∧ IsLeastModel g p.fill := by
  cases steered with
  | true =>
    refine (yields_leastSteer h hf d sc.preferences).mono fun x t _ _ hx => ?_
    obtain ⟨picked, hpicked, g, w, hgranted, hcube, hleast, -⟩ := hx
    exact ⟨picked, hpicked, g, _, hgranted, hcube, hleast⟩
  | false =>
    refine (yields_completeModel h hf).bind fun m t _ _ hm => .pure fun _ => ?_
    obtain ⟨w, hcube, hleast, -⟩ := hm
    exact ⟨_, rfl, f, _, .nil f, hcube, hleast⟩

/-- **Decoding a model** in a store that holds it. The environment is laid out anew. -/
theorem yields_decodes {picked : Steered} {p : Assignment} (hm : s.IsCube picked.model p) :
    Yields s (decode d picked) fun x _ => Decodes d p.fill picked.granted x := by
  rw [decode]
  refine .of_valid fun hs => (Decoding.yields_route _ d).bind fun x t hst ht hx => ?_
  obtain ⟨l, hl, rfl⟩ := hx
  have hmt := hm.mono hs hst
  have hcarries : Decoding.Carries d p.fill t l picked.model := ⟨ht, hl, p, hmt, rfl⟩
  cases hr : Decoding.routeOver t picked.model l d with
  | error e => exact .pure fun _ => ⟨t, l, picked.model, hcarries, by rw [hr, assemble]⟩
  | ok r =>
    refine (Decoding.yields_environment _ d).bind fun y u htu hu hy => ?_
    obtain ⟨k, hk, rfl⟩ := hy
    have hcarries' : Decoding.Carries d p.fill u k picked.model := ⟨hu, hk, p, hmt.mono ht htu, rfl⟩
    have henv := Decoding.environmentOver_congr hcarries hcarries'
    cases he : Decoding.environmentOver u picked.model k d with
    | error e =>
      exact .pure fun _ => ⟨t, l, picked.model, hcarries, by rw [hr, henv, he, assemble]⟩
    | ok e =>
      exact .pure fun _ => ⟨t, l, picked.model, hcarries, by rw [hr, henv, he, assemble]⟩

/-- **A search over a domain** comes to the outcome of what the scenario asks for, if its names are
registered; else a constraint has no formula. -/
theorem yields_searchOver_outcome (d : Domain) (sc : Scenario) (steered : Bool) :
    Yields s (searchOver d sc steered) fun x _ =>
      (Constraint.AllRegistered d sc.constraints ∧
        Outcome d (sc.truth d) (wishesOf sc steered) x) ∨
      ¬Constraint.AllRegistered d sc.constraints ∧ ∃ l t e, l.Over d t ∧
        ((sc.formula l d).run t).1 = .error e ∧ x = .error (.constraint e) := by
  rw [searchOver]
  refine (Layout.yields_ofDomain d).bind fun l t _ ht hl => ?_
  refine (Yields.result (yields_scenarioTruth hl sc)).bind fun x u _ hu hx => ?_
  obtain ⟨hrun, hx⟩ := hx
  cases x with
  | error e =>
    refine .pure fun _ => .inr ⟨fun hreg => ?_, l, t, e, hl, hrun.symm, rfl⟩
    obtain ⟨q, hq⟩ := total_scenarioFormula hl hreg t
    exact nomatch hrun.trans hq
  | ok q =>
    obtain ⟨hf, hreg⟩ := hx q rfl
    dsimp only
    split
    · rename_i hunsat
      refine .pure fun _ => .inl ⟨hreg, .unsatisfiable fun v => ?_⟩
      rw [Bool.not_eq_true', ← Bool.not_eq_true, hf.isSatisfiable_iff hu] at hunsat
      exact Bool.eq_false_iff.2 fun hv => hunsat ⟨v, hv⟩
    · rename_i hsat
      rw [Bool.not_eq_true', Bool.not_eq_false, hf.isSatisfiable_iff hu] at hsat
      refine (yields_leastPick hf hsat sc steered).bind fun y _ _ _ hy => ?_
      obtain ⟨picked, rfl, g, p, hgranted, hcube, hleast⟩ := hy
      exact (yields_decodes hcube).mono fun z _ _ _ hz =>
        .inl ⟨hreg, .decoded hgranted hleast hz⟩

end

/-- A search over the domain of the names. -/
theorem search_of_domain {sc : Scenario} {d : Domain} (hd : sc.allNames.domain = .ok d)
    (steered : Bool) : search sc steered = ((searchOver d sc steered).run .empty).1 := by
  rw [search, hd]

/-- **A witness is an outcome** of what the scenario asks, and all names have been registered. -/
theorem exists_outcome {sc : Scenario} {steered : Bool} {w : Witness}
    (h : search sc steered = .ok w) : ∃ d, sc.allNames.domain = .ok d ∧
      Constraint.AllRegistered d sc.constraints ∧
      Outcome d (sc.truth d) (wishesOf sc steered) (.ok w) := by
  cases hd : sc.allNames.domain with
  | error e =>
    rw [search, hd] at h
    cases h
  | ok d =>
    rw [search_of_domain hd] at h
    obtain ⟨hreg, houtcome⟩ | ⟨-, l, t, e, -, -, hx⟩ :=
      (yields_searchOver_outcome d sc steered).post_run Store.valid_empty
    · exact ⟨d, rfl, hreg, h ▸ houtcome⟩
    · cases hx.symm.trans h

end Witness

/-! ### Scenarios that have a diagram -/

/-- Over its domain the scenario has this diagram, in this store. -/
structure Scenario.CompilesTo (sc : Scenario) (d : Domain) (q : Ref) (s : Store) : Prop where
  domain : sc.allNames.domain = .ok d
  diagram : (sc.diagram d).run .empty = (.ok q, s)

/-- Registered constraints have a diagram. -/
theorem Scenario.exists_compilesTo {sc : Scenario} {d : Domain} (hd : sc.allNames.domain = .ok d)
    (hreg : Constraint.AllRegistered d sc.constraints) : ∃ q s, sc.CompilesTo d q s := by
  rcases hq : (sc.diagram d).run .empty with ⟨x, s⟩
  obtain ⟨-, -, hsome, -⟩ := (yields_diagram d sc).of_run Store.valid_empty hq
  obtain ⟨q, rfl⟩ := hsome hreg
  exact ⟨q, s, hd, hq⟩

namespace Scenario.CompilesTo

variable {sc : Scenario} {d : Domain} {q : Ref} {s : Store} (h : sc.CompilesTo d q s)
include h

theorem allRegistered : Constraint.AllRegistered d sc.constraints := by
  obtain ⟨-, -, -, hdenotes⟩ := (yields_diagram d sc).of_run Store.valid_empty h.diagram
  exact (hdenotes q rfl).2

/-- The diagram is satisfied by exactly the valuations that do what the scenario asks. -/
theorem eval_eq : s.eval q = sc.truth d := by
  obtain ⟨-, -, -, hdenotes⟩ := (yields_diagram d sc).of_run Store.valid_empty h.diagram
  exact funext (hdenotes q rfl).1.eval_eq

theorem wellFormed {v : Valuation} (hv : s.eval q v = true) : Layout.WellFormed d v := by
  rw [h.eval_eq, Scenario.truth_iff] at hv
  exact hv.1

/-- **A search comes to the outcome of the diagram** and of the wishes that count. -/
theorem outcome (steered : Bool) :
    Witness.Outcome d (s.eval q) (Witness.wishesOf sc steered) (Witness.search sc steered) := by
  rw [Witness.search_of_domain h.domain, h.eval_eq]
  have hrun := (Witness.yields_searchOver_outcome d sc steered).post_run Store.valid_empty
  exact (hrun.resolve_right fun hnot => hnot.1 h.allRegistered).2

end Scenario.CompilesTo
end RouteSolver
