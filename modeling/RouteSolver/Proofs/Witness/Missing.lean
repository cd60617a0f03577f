/-
# Entries without a variable

A route may have been laid out over another domain than it is decoded over, and then an entry of the
latter can lack a variable. The first such entry is reported, and it does not depend on the model
which one that is: it has the number that comes after the last variable (`mismatch_reported`).

A next hop is read off one list. Communities are read off two, with a step between them that can
fail as well: first the classes, then a text of every class that the model holds, then the named
communities, whose numbers go on after the classes. So a class without a variable comes before a
class at fault (`ClassFault`), and this before a named community without a variable. The order is
that of `CommunitiesFailure`, which says exactly when and how decoding communities fails.
-/

import RouteSolver.Proofs.Witness.Realized

namespace RouteSolver

open Diagram Delimited

namespace Decoding

/-! ### Classes at fault -/

/-- What is reported of class number `index` of communities if its least text writes none. -/
inductive ClassFault (a : Automaton) (index : Nat) : DecodeError → Prop
  /-- There is no text. -/
  | empty (h : a.example? = none) :
    ClassFault a index (.mismatch (.emptyPredicate .community index))
  /-- The least text is not one between marks. -/
  | undelimited {text : String} (h : a.example? = some text)
    (hmarks : ∀ body, text ≠ communityStart ++ body ++ endMark) :
    ClassFault a index (.mismatch (.undelimited .community index text))
  /-- What is between the marks of the least text writes no community. -/
  | unreadable {body : String} (h : a.example? = some (communityStart ++ body ++ endMark))
    (hread : Community.read? body = none) : ClassFault a index (.notACommunity body)

/-- A class at fault does not lack its variable. -/
theorem ClassFault.ne_missing {a : Automaton} {index : Nat} {e : DecodeError}
    (h : ClassFault a index e) (part : DomainPart) (i : Nat) :
    e ≠ .mismatch (.missingVariable part i) := by
  cases h <;> exact nofun

/-- A class is at fault or represented. -/
theorem representative_cases (i : Nat) (a : Automaton) :
    (∃ c, representative (i, a) = .ok c) ∨
      ∃ e, representative (i, a) = .error e ∧ ClassFault a i e := by
  rw [representative, leastBody]
  cases htext : a.example? with
  | none => exact .inr ⟨_, rfl, .empty htext⟩
  | some text =>
    cases hbody : unmark? communityStart text with
    | none =>
      refine .inr ⟨_, by simp only [hbody]; rfl, .undelimited htext fun body htext' => ?_⟩
      rw [unmark?_eq_some_iff.2 htext'] at hbody
      cases hbody
    | some body =>
      rw [unmark?_eq_some_iff.1 hbody] at htext
      simp only [hbody, bind, Except.bind]
      cases hread : Community.read? body with
      | none => exact .inr ⟨_, rfl, .unreadable htext hread⟩
      | some c => exact .inl ⟨c, rfl⟩

/-- **A class is represented** unless it is at fault. -/
theorem representative_eq_error_iff {i : Nat} {a : Automaton} {e : DecodeError} :
    representative (i, a) = .error e ↔ ClassFault a i e := by
  constructor
  · intro h
    rcases representative_cases i a with ⟨c, hc⟩ | ⟨e', he', hfault⟩
    · exact nomatch hc.symm.trans h
    · rwa [← Except.error.inj (he'.symm.trans h)]
  · intro h
    rw [representative, leastBody]
    cases h with
    | empty h => rw [h]; rfl
    | undelimited h hmarks =>
      have hunmark := Option.eq_none_iff_forall_ne_some.2 fun body hbody =>
        hmarks body (unmark?_eq_some_iff.1 hbody)
      simp only [h, hunmark]
      rfl
    | unreadable h hread =>
      simp only [h, unmark?_eq_some_iff.2 rfl, bind, Except.bind, hread]

/-! ### The first class at fault -/

/-- Class number `i` of communities is held and at fault. -/
def FaultAt (d : Domain) (holds : Nat → Prop) (i : Nat) (e : DecodeError) : Prop :=
  ∃ a, d.standardCommunities.parts[i]? = some a ∧ holds i ∧ ClassFault a i e

/-- What is reported of the first class that is held and at fault. -/
def FirstFault (d : Domain) (holds : Nat → Prop) (e : DecodeError) : Prop :=
  ∃ i, FaultAt d holds i e ∧ ∀ j < i, ∀ e', ¬FaultAt d holds j e'

theorem FirstFault.exists_faultAt {d : Domain} {holds : Nat → Prop} {e : DecodeError}
    (h : FirstFault d holds e) : ∃ i, FaultAt d holds i e :=
  let ⟨i, hfault, _⟩ := h
  ⟨i, hfault⟩

theorem FirstFault.ne_missing {d : Domain} {holds : Nat → Prop} {e : DecodeError}
    (h : FirstFault d holds e) (part : DomainPart) (i : Nat) :
    e ≠ .mismatch (.missingVariable part i) := by
  obtain ⟨_, _, -, -, hfault⟩ := h.exists_faultAt
  exact hfault.ne_missing part i

/-- If any class is at fault, there is a first one. -/
theorem exists_firstFault {d : Domain} {holds : Nat → Prop}
    (h : ∃ i e, FaultAt d holds i e) : ∃ e, FirstFault d holds e := by
  classical
  obtain ⟨e, he⟩ := Nat.find_spec h
  exact ⟨e, _, he, fun j hj e' he' => Nat.find_min h hj ⟨e', he'⟩⟩

section
variable {s : Store} {m : Ref} {l : Layout} {d : Domain}

/-- The classes that the model holds, with their numbers. -/
def heldClasses (s : Store) (m : Ref) (l : Layout) (d : Domain) : List (Nat × Automaton) :=
  pick 0 d.standardCommunities.parts (l.communities.map (s.entails m))

theorem mem_heldClasses {i : Nat} {a : Automaton} : (i, a) ∈ heldClasses s m l d ↔
    d.standardCommunities.parts[i]? = some a ∧ l.Entails s m i := by
  rw [heldClasses, mem_pick_zero, Layout.entails_iff_flag]

/-- **Representing the classes** that are held fails at the first one at fault. -/
theorem representatives_eq_error_iff {e : DecodeError} :
    representatives (heldClasses s m l d) = .error e ↔ FirstFault d (l.Entails s m) e := by
  have hascending : ((heldClasses s m l d).map (·.1)).Pairwise (· < ·) := pick_ascending 0 _ _
  rw [List.pairwise_map] at hascending
  rw [representatives_eq_mapM, mapM_eq_error_iff]
  constructor
  · rintro ⟨before, ⟨i, a⟩, after, hclasses, hbefore, hfault⟩
    have hmem : (i, a) ∈ heldClasses s m l d := by simp [hclasses]
    obtain ⟨ha, hi⟩ := mem_heldClasses.1 hmem
    refine ⟨i, ⟨a, ha, hi, representative_eq_error_iff.1 hfault⟩, ?_⟩
    rintro j hj e' ⟨b, hb, hheld, hfault'⟩
    -- a class with a smaller number stands before, and these are represented
    rw [hclasses, List.pairwise_append, List.pairwise_cons] at hascending
    have hmem' : (j, b) ∈ before ++ (i, a) :: after := hclasses ▸ mem_heldClasses.2 ⟨hb, hheld⟩
    rcases List.mem_append.1 hmem' with hj' | hj'
    · obtain ⟨c, hc⟩ := hbefore _ hj'
      exact nomatch hc.symm.trans (representative_eq_error_iff.2 hfault')
    · rcases List.mem_cons.1 hj' with heq | hj'
      · exact absurd hj (Nat.not_lt.2 (Nat.le_of_eq (Prod.mk.inj heq).1.symm))
      · exact absurd hj (Nat.not_lt.2 (Nat.le_of_lt (hascending.2.1.1 _ hj')))
  · rintro ⟨i, ⟨a, ha, hi, hfault⟩, hfirst⟩
    obtain ⟨before, after, hclasses⟩ := List.append_of_mem (mem_heldClasses.2 ⟨ha, hi⟩)
    refine ⟨before, _, after, hclasses, ?_, representative_eq_error_iff.2 hfault⟩
    rintro ⟨j, b⟩ hj
    rw [hclasses, List.pairwise_append] at hascending
    obtain ⟨hb, hheld⟩ := mem_heldClasses.1 (hclasses ▸ List.mem_append_left _ hj)
    have hlt : j < i := hascending.2.2 _ hj _ List.mem_cons_self
    rcases representative_cases j b with hok | ⟨e', -, hfault'⟩
    · exact hok
    · exact absurd ⟨b, hb, hheld, hfault'⟩ (hfirst j hlt e')

/-! ### Decoding communities -/

/-- How decoding communities fails if the layout has `count` variables for them and the model holds
the classes `holds`. -/
inductive CommunitiesFailure (d : Domain) (count : Nat) (holds : Nat → Prop) : DecodeError → Prop
  /-- A class has no variable. -/
  | missingClass (h : count < d.standardCommunities.size) :
    CommunitiesFailure d count holds (.mismatch (.missingVariable .community count))
  /-- A class that is held is at fault. -/
  | fault (h : d.standardCommunities.size ≤ count) {e : DecodeError}
    (hfault : FirstFault d holds e) : CommunitiesFailure d count holds e
  /-- A named community has no variable, and no class that is held is at fault. -/
  | missingNamed (h : d.standardCommunities.size ≤ count) (hcount : count < d.communityCount)
    (hnone : ∀ i e, ¬FaultAt d holds i e) :
    CommunitiesFailure d count holds (.mismatch (.missingVariable .community count))

theorem communities_of_lt (h : l.communities.length < d.standardCommunities.size) :
    communities s m l d =
      .error (.mismatch (.missingVariable .community l.communities.length)) := by
  have hheld : held s m .community d.standardCommunities.parts l.communities =
      .error (.mismatch (.missingVariable .community (0 + l.communities.length))) :=
    heldFrom_eq_error .community 0 h
  rw [communities, hheld, Nat.zero_add]
  rfl

/-- Where every class has a variable, the classes are represented before the named communities are
looked at. -/
theorem communities_of_ge (h : d.standardCommunities.size ≤ l.communities.length) :
    communities s m l d = (do
      let least ← representatives (heldClasses s m l d)
      let named ← heldFrom s m .community d.standardCommunities.size d.otherCommunities
        (l.communities.drop d.standardCommunities.size)
      return .ofList (least ++ named.map (·.2))) := by
  have hheld : held s m .community d.standardCommunities.parts l.communities =
      .ok (heldClasses s m l d) := heldFrom_eq .community 0 h
  rw [communities, hheld]
  rfl

/-- What has no variable is found missing at the number after the last variable. -/
theorem heldFrom_others_of_lt (h : d.standardCommunities.size ≤ l.communities.length)
    (hcount : l.communities.length < d.communityCount) :
    heldFrom s m .community d.standardCommunities.size d.otherCommunities
      (l.communities.drop d.standardCommunities.size) =
        .error (.mismatch (.missingVariable .community l.communities.length)) := by
  have hlt : (l.communities.drop d.standardCommunities.size).length <
      d.otherCommunities.length := by
    rw [Domain.communityCount] at hcount
    rw [List.length_drop]
    omega
  rw [heldFrom_eq_error .community _ hlt, List.length_drop, Nat.add_sub_cancel' h]

/-- **Decoding communities fails like this.** -/
theorem CommunitiesFailure.communities_eq {e : DecodeError}
    (h : CommunitiesFailure d l.communities.length (l.Entails s m) e) :
    communities s m l d = .error e := by
  cases h with
  | missingClass h => exact communities_of_lt h
  | fault h hfault =>
    rw [communities_of_ge h, representatives_eq_error_iff.2 hfault]
    rfl
  | missingNamed h hcount hnone =>
    rw [communities_of_ge h, heldFrom_others_of_lt h hcount]
    cases hleast : representatives (heldClasses s m l d) with
    | error e =>
      obtain ⟨i, hfault⟩ := (representatives_eq_error_iff.1 hleast).exists_faultAt
      exact absurd hfault (hnone i e)
    | ok least => rfl

/-- Where every entry has a variable and no class is at fault, communities are decoded. -/
theorem exists_communities_eq_ok (hcount : d.communityCount ≤ l.communities.length)
    (hnone : ∀ i e, ¬FaultAt d (l.Entails s m) i e) : ∃ set, communities s m l d = .ok set := by
  have hge : d.standardCommunities.size ≤ l.communities.length :=
    Nat.le_trans (Nat.le_add_right _ _) hcount
  have hle : d.otherCommunities.length ≤
      (l.communities.drop d.standardCommunities.size).length := by
    rw [Domain.communityCount] at hcount
    rw [List.length_drop]
    omega
  rw [communities_of_ge hge, heldFrom_eq .community _ hle]
  cases hleast : representatives (heldClasses s m l d) with
  | error e =>
    obtain ⟨i, hfault⟩ := (representatives_eq_error_iff.1 hleast).exists_faultAt
    exact absurd hfault (hnone i e)
  | ok least => exact ⟨_, rfl⟩

omit s m l in
/-- Where an entry has no variable, decoding fails in one of these ways. -/
theorem exists_communitiesFailure {count : Nat} (hcount : count < d.communityCount)
    (holds : Nat → Prop) : ∃ e, CommunitiesFailure d count holds e := by
  rcases Nat.lt_or_ge count d.standardCommunities.size with hlt | hge
  · exact ⟨_, .missingClass hlt⟩
  by_cases hfault : ∃ i e, FaultAt d holds i e
  · obtain ⟨e, he⟩ := exists_firstFault hfault
    exact ⟨e, .fault hge he⟩
  · exact ⟨_, .missingNamed hge hcount fun i e h => hfault ⟨i, e, h⟩⟩

/-- **Decoding communities fails** exactly if it fails like this. -/
theorem communities_eq_error_iff {e : DecodeError} : communities s m l d = .error e ↔
    CommunitiesFailure d l.communities.length (l.Entails s m) e := by
  refine ⟨fun h => ?_, CommunitiesFailure.communities_eq⟩
  have hfails : ∃ e', CommunitiesFailure d l.communities.length (l.Entails s m) e' := by
    rcases Nat.lt_or_ge l.communities.length d.communityCount with hlt | hge
    · exact exists_communitiesFailure hlt _
    · have hfault : ∃ i e', FaultAt d (l.Entails s m) i e' := by
        by_contra hnone
        obtain ⟨set, hset⟩ :=
          exists_communities_eq_ok hge fun i e' hfault => hnone ⟨i, e', hfault⟩
        exact nomatch hset.symm.trans h
      obtain ⟨e', he'⟩ := exists_firstFault hfault
      exact ⟨e', .fault (Nat.le_trans (Nat.le_add_right _ _) hge) he'⟩
  obtain ⟨e', he'⟩ := hfails
  rwa [← Except.error.inj (he'.communities_eq.symm.trans h)]

/-! ### Decoding next hops -/

theorem atMostOne_ne_missing {α : Type} (part : DomainPart) (ps : List (Nat × α))
    (part' : DomainPart) (i : Nat) :
    atMostOne part ps ≠ .error (.mismatch (.missingVariable part' i)) := by
  rcases ps with _ | ⟨p, _ | ⟨q, ps⟩⟩ <;> exact nofun

/-- **A next hop** lacks a variable exactly if there are more interfaces than variables, and it is
the one after the last variable. -/
theorem nextHop_eq_missing_iff {part : DomainPart} {i : Nat} :
    nextHop s m l d = .error (.mismatch (.missingVariable part i)) ↔
      part = .nextHopInterface ∧ i = l.nextHopInterfaces.length ∧
        l.nextHopInterfaces.length < d.nextHopInterfaces.length := by
  rcases Nat.lt_or_ge l.nextHopInterfaces.length d.nextHopInterfaces.length with hlt | hge
  · have hheld : held s m .nextHopInterface d.nextHopInterfaces l.nextHopInterfaces =
        .error (.mismatch (.missingVariable .nextHopInterface (0 + l.nextHopInterfaces.length))) :=
      heldFrom_eq_error .nextHopInterface 0 hlt
    rw [nextHop, hheld, Nat.zero_add]
    constructor
    · intro h
      cases h
      exact ⟨rfl, rfl, hlt⟩
    · rintro ⟨rfl, rfl, -⟩
      rfl
  · have hheld : held s m .nextHopInterface d.nextHopInterfaces l.nextHopInterfaces =
        .ok (pick 0 d.nextHopInterfaces (l.nextHopInterfaces.map (s.entails m))) :=
      heldFrom_eq .nextHopInterface 0 hge
    refine iff_of_false (fun h => ?_) fun h => Nat.not_lt.2 hge h.2.2
    rw [nextHop] at h
    simp only [hheld, bind, Except.bind] at h
    split at h
    · rename_i heq
      rw [Except.error.inj h] at heq
      exact atMostOne_ne_missing _ _ _ _ heq
    · split at h <;> cases h

end

/-! ### Routes of another domain -/

/-- **A mismatch of route and domain is always reported**, and nothing else is taken for one. A
route is laid out over some domain and decoded over another one, for any diagram as a model. A
next hop lacks a variable exactly if the latter has more interfaces than the route has variables for
them: then the one after the last variable is reported, whatever the model selects. Communities are
never decoded if there are more of them than variables. If already the classes are more, the one
after the last variable is reported; if only the named communities make them more, this is reported
unless a class that the model entails is at fault, and then the first of these. If they are not
more, no variable is found missing. -/
theorem mismatch_reported {d₀ d : Domain} {s₀ s₁ s : Store} {l : Layout} (hs₀ : s₀.Reachable)
    (hl : (Layout.ofDomain d₀).run s₀ = (l, s₁)) (hs : s.Reachable) (hle : s₁ ≤ s) {m : Ref}
    (hm : s.Has m) :
    (l.nextHopInterfaces.length = d₀.nextHopInterfaces.length ∧
      l.communities.length = d₀.communityCount ∧
      ∀ i, i < d₀.communityCount →
        (l.Entails s m i ↔ ∀ v, s.eval m v = true → v (Layout.listStart + i) = true)) ∧
    (∀ part i, nextHop s m l d = .error (.mismatch (.missingVariable part i)) ↔
      part = .nextHopInterface ∧ i = l.nextHopInterfaces.length ∧
        l.nextHopInterfaces.length < d.nextHopInterfaces.length) ∧
    (l.communities.length < d.standardCommunities.size → communities s m l d =
      .error (.mismatch (.missingVariable .community l.communities.length))) ∧
    (d.standardCommunities.size ≤ l.communities.length →
      l.communities.length < d.communityCount → ∃ e, communities s m l d = .error e ∧
        (FirstFault d (l.Entails s m) e ∨ (∀ i e', ¬FaultAt d (l.Entails s m) i e') ∧
          e = .mismatch (.missingVariable .community l.communities.length))) ∧
    (d.communityCount ≤ l.communities.length → ∀ part i,
      communities s m l d ≠ .error (.mismatch (.missingVariable part i))) := by
  obtain ⟨hs₁, -, hover⟩ := (Layout.yields_ofDomain d₀).of_run hs₀.valid hl
  have hover := hover.mono hs₁ hle
  refine ⟨⟨hover.nextHopInterfaces.length_eq, hover.communities.length_eq,
    fun i hi => hover.entails_iff hs.valid hm hi⟩, fun part i => nextHop_eq_missing_iff,
    communities_of_lt, fun hge hlt => ?_, fun hge part i h => ?_⟩
  · obtain ⟨e, he⟩ := exists_communitiesFailure hlt (l.Entails s m)
    refine ⟨e, he.communities_eq, ?_⟩
    cases he with
    | missingClass h => exact absurd h (Nat.not_lt.2 hge)
    | fault _ hfault => exact .inl hfault
    | missingNamed _ _ hnone => exact .inr ⟨hnone, rfl⟩
  · have hge' : d.standardCommunities.size ≤ l.communities.length :=
      Nat.le_trans (Nat.le_add_right _ _) hge
    rcases communities_eq_error_iff.1 h with hlt | ⟨_, hfault⟩ | ⟨_, hlt, _⟩
    · exact Nat.not_lt.2 hge' hlt
    · exact hfault.ne_missing _ _ rfl
    · exact Nat.not_lt.2 hge hlt

/-- A domain with one class of communities, which is empty. -/
def emptyClass : Domain := ⟨.ofParts [.nothing], [], .ofParts [], [], [], []⟩

/-- A domain with the same class, and with a large community and an interface besides. -/
def emptyClassAndLarge : Domain :=
  ⟨.ofParts [.nothing], [.large ⟨1, 2, 3⟩], .ofParts [], [], [], ["eth0"]⟩

/-- Class number zero is the only one, and nothing but its emptiness is reported of it. -/
theorem faultAt_emptyClassAndLarge {holds : Nat → Prop} {i : Nat} {e : DecodeError} :
    FaultAt emptyClassAndLarge holds i e ↔
      i = 0 ∧ holds 0 ∧ e = .mismatch (.emptyPredicate .community 0) := by
  have hempty : Automaton.nothing.example? = none := by decide
  constructor
  · rintro ⟨a, ha, hi, hfault⟩
    have hzero : i = 0 := Nat.lt_one_iff.1 (List.getElem?_eq_some_iff.1 ha).1
    subst hzero
    obtain rfl : .nothing = a := Option.some.inj ha
    cases hfault with
    | empty => exact ⟨rfl, hi, rfl⟩
    | undelimited h _ => exact nomatch hempty.symm.trans h
    | unreadable h _ => exact nomatch hempty.symm.trans h
  · rintro ⟨rfl, hzero, rfl⟩
    exact ⟨.nothing, rfl, hzero, .empty hempty⟩

/-- The route has one variable, which is that of the class. Whatever the model, the interface is
found to have none. A model that is the variable has the class, which is at fault; a model that asks
for nothing does not, and so it is the large community that is found to have no variable. -/
theorem mismatch_reported_emptyClass : ∃ l s x, (Layout.ofDomain emptyClass).run .empty = (l, s) ∧
    nextHop s x l emptyClassAndLarge = .error (.mismatch (.missingVariable .nextHopInterface 0)) ∧
    communities s x l emptyClassAndLarge = .error (.mismatch (.emptyPredicate .community 0)) ∧
    communities s .top l emptyClassAndLarge =
      .error (.mismatch (.missingVariable .community 1)) := by
  rcases hl : (Layout.ofDomain emptyClass).run .empty with ⟨l, s⟩
  have hs := Layout.reachable_of_ofDomain .empty hl
  obtain ⟨-, -, hover⟩ := (Layout.yields_ofDomain emptyClass).of_run Store.valid_empty hl
  have hcount : l.communities.length = 1 := hover.communities.length_eq
  obtain ⟨x, hx⟩ := List.length_eq_one_iff.1 hcount
  have hvar := hover.communities.denotes (i := 0) (x := x) (by rw [hx]; rfl)
  have hge : emptyClassAndLarge.standardCommunities.size ≤ l.communities.length :=
    Nat.le_of_eq hcount.symm
  have hlt : l.communities.length < emptyClassAndLarge.communityCount := hcount ▸ Nat.one_lt_two
  obtain ⟨⟨hinterfaces, -, hentails⟩, hhop, -, hfails, -⟩ :=
    mismatch_reported (d := emptyClassAndLarge) .empty hl hs (le_refl s) hvar.has
  obtain ⟨⟨-, -, htop⟩, -, -, hfailsTop, -⟩ :=
    mismatch_reported (d := emptyClassAndLarge) .empty hl hs (le_refl s) hs.valid.has_top
  have hzero : l.Entails s x 0 := (hentails 0 Nat.one_pos).2 fun v hv => hvar.eval_eq v ▸ hv
  have hnone : ¬l.Entails s .top 0 := fun h =>
    Bool.false_ne_true ((htop 0 Nat.one_pos).1 h (fun _ => false) (Store.eval_top s _))
  refine ⟨l, s, x, rfl, (hhop _ _).2 ⟨rfl, hinterfaces.symm, hinterfaces ▸ Nat.one_pos⟩, ?_, ?_⟩
  · obtain ⟨e, he, hfirst | ⟨hfree, -⟩⟩ := hfails hge hlt
    · obtain ⟨i, hfault⟩ := hfirst.exists_faultAt
      rw [he, (faultAt_emptyClassAndLarge.1 hfault).2.2]
    · exact absurd (faultAt_emptyClassAndLarge.2 ⟨rfl, hzero, rfl⟩) (hfree 0 _)
  · obtain ⟨e, he, hfirst | ⟨-, rfl⟩⟩ := hfailsTop hge hlt
    · obtain ⟨i, hfault⟩ := hfirst.exists_faultAt
      exact absurd (faultAt_emptyClassAndLarge.1 hfault).2.1 hnone
    · rw [he, hcount]

end Decoding
end RouteSolver
