/-
# How decoding can fail

Decoding a model that entails well-formedness fails in two ways only (`decode_failure`): the least
text of a class of communities writes no community, or a number in the least AS path of a class is
too large. Such a model has no concrete route; that domain, layout and model do not belong together
is never reported.

The other failures are each excluded by what has been proved about classes and cubes: classes have
members, all members have their marks, every entry of the domain has a variable, and a cube that
entails well-formedness picks at most one of what excludes each other. So a decoder is followed step
by step (`FailsOnly.bind`).
-/

import RouteSolver.Proofs.Witness.RoundTrip

namespace RouteSolver

open Diagram Delimited

/-! ### Computations that fail for a good reason -/

/-- A text writes no value of its kind. -/
inductive DecodeError.Unreadable : DecodeError → Prop
  | community {text : String} (h : Community.read? text = none) : Unreadable (.notACommunity text)
  | asNumber {token path : String} (h : word32? token.toList = none)
    (hmem : token.toList ∈ Text.split ' ' path.toList) : Unreadable (.notAnAsNumber token path)

theorem DecodeError.Unreadable.isFatal {e : DecodeError} (h : e.Unreadable) :
    e.isFatal = false := by
  cases h <;> rfl

namespace Decoding

/-- If the computation fails, then because of a text that writes no value. -/
def FailsOnly {α : Type} (x : Except DecodeError α) : Prop := ∀ e, x = .error e → e.Unreadable

namespace FailsOnly

variable {α β : Type} {x : Except DecodeError α} {k : α → Except DecodeError β}

theorem of_eq_ok {a : α} (h : x = .ok a) : FailsOnly x := fun _ he => nomatch h.symm.trans he

theorem throw {e : DecodeError} (h : e.Unreadable) : FailsOnly (.error e : Except DecodeError α) :=
  fun _ he => Except.error.inj he ▸ h

theorem bind (hx : FailsOnly x) (hk : ∀ a, x = .ok a → FailsOnly (k a)) : FailsOnly (x >>= k) := by
  cases x with
  | ok a => exact hk a rfl
  | error e => exact fun _ he => Except.error.inj he ▸ hx e rfl

theorem map {f : α → β} (hx : FailsOnly x) : FailsOnly (x.map f) := by
  cases x with
  | ok a => exact of_eq_ok rfl
  | error e => exact fun _ he => Except.error.inj he ▸ hx e rfl

end FailsOnly

/-! ### The texts of classes -/

/-- **A class of communities** whose least member is marked can only fail to be a community. -/
theorem failsOnly_representatives {ps : List (Nat × Automaton)} (hvalid : ∀ p ∈ ps, p.2.Valid)
    (hne : ∀ p ∈ ps, ∃ w, p.2.acceptsBytes w = true)
    (hsub : ∀ p ∈ ps, ∀ w, p.2.acceptsBytes w = true → allCommunities.acceptsBytes w = true) :
    FailsOnly (representatives ps) := by
  induction ps with
  | nil => exact .of_eq_ok rfl
  | cons p ps ih =>
    obtain ⟨ha, hps⟩ := List.forall_mem_cons.1 hvalid
    obtain ⟨hane, hpsne⟩ := List.forall_mem_cons.1 hne
    obtain ⟨hasub, hpssub⟩ := List.forall_mem_cons.1 hsub
    obtain ⟨body, hbody, -⟩ := read?_leastBody_iff ha .community p.1 hane hasub
    rw [representatives]
    refine .bind (.of_eq_ok hbody) fun text htext => ?_
    cases hread : Community.read? text with
    | none => exact .throw (.community hread)
    | some c => exact .bind (ih hps hpsne hpssub) fun _ _ => .of_eq_ok rfl

/-- Reading the numbers of a path fails at one of them. -/
theorem failsOnly_asNumbers {path : List Char} {tokens : List (List Char)}
    (h : ∀ token ∈ tokens, token ∈ Text.split ' ' path) : FailsOnly (asNumbers path tokens) := by
  induction tokens with
  | nil => exact .of_eq_ok rfl
  | cons token tokens ih =>
    obtain ⟨htoken, htokens⟩ := List.forall_mem_cons.1 h
    rw [asNumbers]
    cases hread : word32? token with
    | none =>
      refine .throw (.asNumber ?_ ?_)
      · rwa [String.toList_ofList]
      · rwa [String.toList_ofList, String.toList_ofList]
    | some n => exact (ih htokens).map

theorem failsOnly_readPath (body : String) : FailsOnly (readPath body) := by
  rw [readPath]
  split
  · exact .of_eq_ok rfl
  · exact (failsOnly_asNumbers fun _ h => h).map

/-! ### The decoders -/

section
variable {d : Domain} {s : Store} {l : Layout} {m : Ref} {p : Assignment} (hd : d.Valid)
  (hs : s.Valid) (hl : l.Over d s) (hm : s.IsCube m p)
include hd hs hl hm

theorem failsOnly_communities : FailsOnly (communities s m l d) := by
  have hheld := held_standardCommunities hs hl hm
  refine .bind (.of_eq_ok hheld) fun ps hps => ?_
  obtain rfl := Except.ok.inj (hheld.symm.trans hps)
  have hmem : ∀ q ∈ pick 0 d.standardCommunities.parts
      (block p.fill Layout.listStart d.communityCount), q.2 ∈ d.standardCommunities.parts :=
    fun q hq => List.mem_of_getElem? (mem_pick_zero.1 hq).1
  refine .bind (failsOnly_representatives (fun q hq => hd.communities.valid _ (hmem q hq))
    (fun q hq => hd.communities.nonempty _ (hmem q hq))
    fun q hq w hw => (hd.communities.covers w).2 ⟨_, hmem q hq, hw⟩) fun _ _ => ?_
  exact .bind (.of_eq_ok (heldFrom_otherCommunities hs hl hm)) fun _ _ => .of_eq_ok rfl

theorem failsOnly_asPath (hcount : (block p.fill d.asPathStart d.asPaths.size).count true = 1) :
    FailsOnly (asPath s m l d) := by
  obtain ⟨_, _, body, -, heq, -⟩ := asPath_eq_readPath hd hs hl hm hcount
  exact heq ▸ failsOnly_readPath body

/-- **A well-formed model** is decoded unless a text of one of its classes writes no value. -/
theorem failsOnly_routeOver (hwf : Layout.WellFormed d p.fill) :
    FailsOnly (routeOver s m l d) := by
  have hnetwork : ∃ n, Network.of? (.ofNat (l.address.valueUnder s m))
      (l.length.valueUnder s m) = some n := by
    rw [valueUnder_eq hs hm hl.length]
    exact ⟨_, dif_pos hwf.length_le⟩
  obtain ⟨n, hn⟩ := hnetwork
  obtain ⟨h, hnext, -⟩ := nextHop_eq hs hl hm hd hwf.nextHopInterface
  rw [routeOver]
  simp only [hn]
  refine .bind (failsOnly_communities hd hs hl hm) fun _ _ => ?_
  refine .bind (failsOnly_asPath hd hs hl hm hwf.asPath) fun _ _ => ?_
  exact .bind (.of_eq_ok hnext) fun _ _ => .of_eq_ok rfl

end

/-! ### Models that entail well-formedness -/

/-- **Decoding fails only for unreadable texts.** From a cube that entails well-formedness an
environment is always decoded, and a route unless a least text writes no community or no AS
number; that is no fatal failure. -/
theorem decode_failure {names : NameList} {d : Domain} (hd : names.domain = .ok d)
    {s₀ s₁ s : Store} {q m : Ref} {p : Assignment} (hs₀ : s₀.Valid)
    (hq : (Layout.ofDomain d >>= Layout.wellFormed).run s₀ = (q, s₁)) (hs : s.Valid)
    (hle : s₁ ≤ s) (hm : s.IsCube m p) (hentails : s.entails m q = true) :
    (∀ e, ((Decoding.route m d).run s).1 = .error e → e.Unreadable ∧ e.isFatal = false) ∧
      ∃ e, ((Decoding.environment m d).run s).1 = .ok e := by
  have hwf := wellFormed_of_entails hs₀ hq hs hle hm hentails
  have hvalid := NameList.domain_valid hd
  constructor
  · intro e he
    rcases hrun : (Decoding.route m d).run s with ⟨x, t⟩
    obtain ⟨ht, hst, l, hl, rfl⟩ := (yields_route m d).of_run hs hrun
    rw [hrun] at he
    have hunreadable := failsOnly_routeOver hvalid ht hl (hm.mono hs hst) hwf e he
    exact ⟨hunreadable, hunreadable.isFatal⟩
  · rcases hrun : (Decoding.environment m d).run s with ⟨x, t⟩
    obtain ⟨ht, hst, l, hl, rfl⟩ := (yields_environment m d).of_run hs hrun
    exact exists_environmentOver hvalid hwf ht hl (hm.mono hs hst)

theorem decode_failure_edge : ∃ d s₁ s q m, edgeNames.domain = .ok d ∧
    (Layout.ofDomain d >>= Layout.wellFormed).run .empty = (q, s₁) ∧ s.Valid ∧ s₁ ≤ s ∧
      s.IsCube m (.below d.variableCount (encode d edgeRoute edgeEnvironment)) ∧
      s.entails m q = true ∧
        (∀ e, ((Decoding.route m d).run s).1 = .error e → e.Unreadable ∧ e.isFatal = false) ∧
        ∃ e, ((Decoding.environment m d).run s).1 = .ok e := by
  obtain ⟨d, hd⟩ := exists_domain_edgeNames
  obtain ⟨s₁, s, q, m, hq, hs, hle, hm, hentails⟩ :=
    exists_cube_encode (NameList.domain_valid hd) (representable_edge hd).single edgeEnvironment
  exact ⟨d, s₁, s, q, m, hd, hq, hs, hle, hm, hentails,
    decode_failure hd Store.valid_empty hq hs hle hm hentails⟩

end Decoding
end RouteSolver
