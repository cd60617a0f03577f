/-
# What constraints mention

`NameList.addConstraints` collects everything that some constraints refer to, at any depth
(`NameList.has_addConstraints`), and a domain that has been built finds everything that its names
list (`NameList.finds_of_has`), though names are listed as texts and looked up as values. So only
two things can go wrong before a search has its formula. A domain cannot be built if a text among
the names writes no community, or a pattern is none (`NameList.exists_domain_error_iff`). A
constraint has no formula if it names a community in both ways or in none
(`Constraint.registered_iff`, `Constraint.failsAmbiguous_formula`).
-/

import RouteSolver.Proofs.Constraint.Registered
import RouteSolver.Proofs.Domain.Names
import RouteSolver.Proofs.Route.Texts

namespace RouteSolver

open Diagram Delimited

/-! ### Mentions -/

/-- What can be referred to by a text. -/
inductive Mention where
  /-- A community, by any text that writes it. -/
  | community (text : String)
  | communityRegex (pattern : String)
  | asPathRegex (pattern : String)
  | nextHopInterface (name : String)
  | track (name : String)
  | sourceVrf (name : String)

/-- The text writes nothing of its kind. -/
inductive Mention.Invalid : Mention → Prop
  | community {text : String} (h : Community.read? text = none) : Invalid (.community text)
  | communityRegex {pattern : String} {e : InvalidPattern}
    (h : matchingCommunities pattern = .error e) : Invalid (.communityRegex pattern)
  | asPathRegex {pattern : String} {e : InvalidPattern}
    (h : matchingAsPaths pattern = .error e) : Invalid (.asPathRegex pattern)

/-- The names list what is referred to. -/
def NameList.Has (names : NameList) : Mention → Prop
  | .community text => text ∈ names.communities
  | .communityRegex pattern => pattern ∈ names.communityRegexes
  | .asPathRegex pattern => pattern ∈ names.asPathRegexes
  | .nextHopInterface name => name ∈ names.nextHopInterfaces
  | .track name => name ∈ names.tracks
  | .sourceVrf name => name ∈ names.sourceVrfs

/-- The domain finds what is referred to. -/
def Domain.Finds (d : Domain) : Mention → Prop
  | .community text => ∃ c ns, Community.read? text = some c ∧ d.communities? (.literal c) = some ns
  | .communityRegex pattern => ∃ ns, d.communities? (.regex pattern) = some ns
  | .asPathRegex pattern => ∃ ns, d.asPaths? pattern = some ns
  | .nextHopInterface name => name ∈ d.nextHopInterfaces
  | .track name => name ∈ d.tracks
  | .sourceVrf name => name ∈ d.sourceVrfs

namespace Constraint

/-- The constraint is the other one, or stands somewhere inside it. -/
inductive OccursIn (b : Constraint) : Constraint → Prop
  | here : OccursIn b b
  | not {c : Constraint} (h : OccursIn b c) : OccursIn b (.not c)
  | allOf {c : Constraint} {cs : List Constraint} (hc : c ∈ cs) (h : OccursIn b c) :
    OccursIn b (.allOf cs)
  | anyOf {c : Constraint} {cs : List Constraint} (hc : c ∈ cs) (h : OccursIn b c) :
    OccursIn b (.anyOf cs)

/-- The constraint itself refers to this; what stands inside it does not count. -/
inductive RefersTo : Constraint → Mention → Prop
  | literal (c : Community) (regex : Option String) :
    RefersTo (.community (some c) regex) (.community c.text)
  | regex (literal : Option Community) (pattern : String) :
    RefersTo (.community literal (some pattern)) (.communityRegex pattern)
  | asPath (pattern : String) : RefersTo (.asPath pattern) (.asPathRegex pattern)
  | nextHopInterface (name : String) : RefersTo (.nextHopInterface name) (.nextHopInterface name)
  | track (name : String) : RefersTo (.track name) (.track name)
  | sourceVrf (name : String) : RefersTo (.sourceVrf name) (.sourceVrf name)

/-- The constraint refers to this at some depth. -/
def Mentions (c : Constraint) (m : Mention) : Prop := ∃ b, OccursIn b c ∧ RefersTo b m

variable {b c : Constraint} {cs : List Constraint} {m : Mention}

theorem occursIn_not : OccursIn b (.not c) ↔ b = .not c ∨ OccursIn b c := by
  constructor
  · rintro (_ | h)
    · exact .inl rfl
    · exact .inr h
  · rintro (rfl | h)
    · exact .here
    · exact .not h

theorem occursIn_allOf : OccursIn b (.allOf cs) ↔ b = .allOf cs ∨ ∃ c ∈ cs, OccursIn b c := by
  constructor
  · rintro (_ | _ | ⟨hc, h⟩)
    · exact .inl rfl
    · exact .inr ⟨_, hc, h⟩
  · rintro (rfl | ⟨c, hc, h⟩)
    · exact .here
    · exact .allOf hc h

theorem occursIn_anyOf : OccursIn b (.anyOf cs) ↔ b = .anyOf cs ∨ ∃ c ∈ cs, OccursIn b c := by
  constructor
  · rintro (_ | _ | _ | ⟨hc, h⟩)
    · exact .inl rfl
    · exact .inr ⟨_, hc, h⟩
  · rintro (rfl | ⟨c, hc, h⟩)
    · exact .here
    · exact .anyOf hc h

theorem mentions_not : Mentions (.not c) m ↔ c.Mentions m := by
  simp only [Mentions, occursIn_not, or_and_right, exists_or, exists_eq_left]
  exact or_iff_right nofun

theorem mentions_allOf : Mentions (.allOf cs) m ↔ ∃ c ∈ cs, c.Mentions m := by
  simp only [Mentions, occursIn_allOf, or_and_right, exists_or, exists_eq_left]
  rw [or_iff_right (nofun : ¬RefersTo (.allOf cs) m)]
  exact ⟨fun ⟨b, ⟨c, hc, h⟩, hb⟩ => ⟨c, hc, b, h, hb⟩, fun ⟨c, hc, b, h, hb⟩ => ⟨b, ⟨c, hc, h⟩, hb⟩⟩

theorem mentions_anyOf : Mentions (.anyOf cs) m ↔ ∃ c ∈ cs, c.Mentions m := by
  simp only [Mentions, occursIn_anyOf, or_and_right, exists_or, exists_eq_left]
  rw [or_iff_right (nofun : ¬RefersTo (.anyOf cs) m)]
  exact ⟨fun ⟨b, ⟨c, hc, h⟩, hb⟩ => ⟨c, hc, b, h, hb⟩, fun ⟨c, hc, b, h, hb⟩ => ⟨b, ⟨c, hc, h⟩, hb⟩⟩

/-- If only itself stands inside a constraint, it mentions what it refers to. -/
theorem mentions_leaf (hleaf : ∀ b, OccursIn b c → b = c) : c.Mentions m ↔ c.RefersTo m :=
  ⟨fun ⟨b, h, hb⟩ => hleaf b h ▸ hb, fun h => ⟨c, .here, h⟩⟩

theorem refersTo_community {literal : Option Community} {regex : Option String} :
    RefersTo (.community literal regex) m ↔
      (∃ c ∈ literal, m = .community c.text) ∨ ∃ pattern ∈ regex, m = .communityRegex pattern := by
  constructor
  · rintro (⟨c, _⟩ | ⟨_, pattern⟩)
    · exact .inl ⟨c, rfl, rfl⟩
    · exact .inr ⟨pattern, rfl, rfl⟩
  · rintro (⟨c, rfl, rfl⟩ | ⟨pattern, rfl, rfl⟩)
    · exact .literal c regex
    · exact .regex literal pattern

theorem refersTo_asPath {pattern : String} :
    RefersTo (.asPath pattern) m ↔ m = .asPathRegex pattern :=
  ⟨fun h => by cases h; rfl, fun h => h ▸ .asPath pattern⟩

theorem refersTo_nextHopInterface {name : String} :
    RefersTo (.nextHopInterface name) m ↔ m = .nextHopInterface name :=
  ⟨fun h => by cases h; rfl, fun h => h ▸ .nextHopInterface name⟩

theorem refersTo_track {name : String} : RefersTo (.track name) m ↔ m = .track name :=
  ⟨fun h => by cases h; rfl, fun h => h ▸ .track name⟩

theorem refersTo_sourceVrf {name : String} : RefersTo (.sourceVrf name) m ↔ m = .sourceVrf name :=
  ⟨fun h => by cases h; rfl, fun h => h ▸ .sourceVrf name⟩

end Constraint

/-! ### Collecting mentions -/

namespace NameList

open Constraint

mutual
/-- **Adding a constraint** adds exactly what it refers to, at any depth. -/
theorem has_addConstraint (m : Mention) : ∀ (c : Constraint) (names : NameList),
    (names.addConstraint c).Has m ↔ names.Has m ∨ c.Mentions m
  | .not c, names => by rw [addConstraint, has_addConstraint m c, mentions_not]
  | .allOf cs, names => by rw [addConstraint, has_addConstraints m cs, mentions_allOf]
  | .anyOf cs, names => by rw [addConstraint, has_addConstraints m cs, mentions_anyOf]
  | .community literal regex, names => by
    rw [mentions_leaf fun b h => by cases h; rfl, refersTo_community]
    cases m <;> cases literal <;> cases regex <;> simp [addConstraint, Has]
  | .asPath pattern, names => by
    rw [mentions_leaf fun b h => by cases h; rfl, refersTo_asPath]
    cases m <;> simp [addConstraint, Has]
  | .nextHopInterface name, names => by
    rw [mentions_leaf fun b h => by cases h; rfl, refersTo_nextHopInterface]
    cases m <;> simp [addConstraint, Has]
  | .track name, names => by
    rw [mentions_leaf fun b h => by cases h; rfl, refersTo_track]
    cases m <;> simp [addConstraint, Has]
  | .sourceVrf name, names => by
    rw [mentions_leaf fun b h => by cases h; rfl, refersTo_sourceVrf]
    cases m <;> simp [addConstraint, Has]
  | .protocol _, names | .originType _, names | .within _ _ _, names
  | .prefixWithin _ _ _, names | .nextHopWithin _, names => by
    rw [mentions_leaf fun b h => by cases h; rfl, addConstraint]
    exact (or_iff_left nofun).symm

theorem has_addConstraints (m : Mention) : ∀ (cs : List Constraint) (names : NameList),
    (names.addConstraints cs).Has m ↔ names.Has m ∨ ∃ c ∈ cs, c.Mentions m
  | [], names => by simp [addConstraints]
  | c :: cs, names => by
    rw [addConstraints, has_addConstraints m cs, has_addConstraint m c, List.exists_mem_cons_iff,
      or_assoc]
end

/-! ### Building a domain -/

theorem exists_readCommunities_error_iff {texts : List String} :
    (∃ e, readCommunities texts = .error e) ↔ ∃ text ∈ texts, Community.read? text = none := by
  induction texts with
  | nil => simp [readCommunities]
  | cons text texts ih =>
    rw [readCommunities, List.exists_mem_cons_iff, ← ih]
    cases hread : Community.read? text with
    | none => simp
    | some c => cases readCommunities texts <;> simp [Except.map]

theorem exists_communityLanguage?_error_iff {p : CommunityPattern} :
    (∃ e, communityLanguage? p = .error e) ↔
      ∃ pattern, p = .regex pattern ∧ ∃ e, matchingCommunities pattern = .error e := by
  cases p with
  | literal c => cases c <;> exact iff_of_false nofun nofun
  | regex pattern =>
    have hpattern : (∃ q, CommunityPattern.regex pattern = .regex q ∧
        ∃ e, matchingCommunities q = .error e) ↔ ∃ e, matchingCommunities pattern = .error e :=
      ⟨fun ⟨_, hq, he⟩ => CommunityPattern.regex.inj hq ▸ he, fun he => ⟨pattern, rfl, he⟩⟩
    rw [hpattern]
    delta communityLanguage?
    cases hp : matchingCommunities pattern with
    | error e => simp only [hp, Except.error.injEq, exists_eq']
    | ok a => simp only [hp, reduceCtorEq, exists_false]

theorem exists_asPathLanguage_error_iff {pattern : String} :
    (∃ e, asPathLanguage pattern = .error e) ↔ ∃ e, matchingAsPaths pattern = .error e := by
  delta asPathLanguage
  cases matchingAsPaths pattern with
  | error e => exact iff_of_true ⟨_, rfl⟩ ⟨e, rfl⟩
  | ok a => exact iff_of_false nofun nofun

variable {names : NameList} {d : Domain} {m : Mention}

/-- **A domain cannot be built** exactly if a name writes nothing of its kind. -/
theorem exists_domain_error_iff :
    (∃ e, names.domain = .error e) ↔ ∃ m, names.Has m ∧ m.Invalid := by
  have hsplit : (∃ m, names.Has m ∧ m.Invalid) ↔
      (∃ text ∈ names.communities, Community.read? text = none) ∨
      (∃ pattern ∈ names.communityRegexes, ∃ e, matchingCommunities pattern = .error e) ∨
        ∃ pattern ∈ names.asPathRegexes, ∃ e, matchingAsPaths pattern = .error e := by
    constructor
    · rintro ⟨m, hm, ⟨h⟩ | ⟨h⟩ | ⟨h⟩⟩
      · exact .inl ⟨_, hm, h⟩
      · exact .inr (.inl ⟨_, hm, _, h⟩)
      · exact .inr (.inr ⟨_, hm, _, h⟩)
    · rintro (⟨_, hm, h⟩ | ⟨_, hm, _, h⟩ | ⟨_, hm, _, h⟩)
      · exact ⟨.community _, hm, .community h⟩
      · exact ⟨.communityRegex _, hm, .communityRegex h⟩
      · exact ⟨.asPathRegex _, hm, .asPathRegex h⟩
  have hdone : ∀ d : Domain, (∃ e, (pure d : Except DomainError Domain) = .error e) ↔ False :=
    fun d => iff_of_false (by rintro ⟨e, he⟩; cases he) id
  rw [hsplit, domain, exists_error_bind_iff fun cs _ => ?_, exists_readCommunities_error_iff]
  refine (exists_error_bind_iff fun ls _ => exists_error_bind_iff fun ks _ => hdone _).trans ?_
  rw [or_false, exists_error_mapM_iff, exists_error_mapM_iff]
  refine or_congr ?_ ?_
  · simp only [List.mem_eraseDups, List.mem_append, List.mem_map,
      exists_communityLanguage?_error_iff]
    constructor
    · rintro ⟨p, (⟨_, -, rfl⟩ | ⟨pattern, hmem, rfl⟩), _, heq, he⟩
      · cases heq
      · obtain rfl := CommunityPattern.regex.inj heq
        exact ⟨_, hmem, he⟩
    · rintro ⟨pattern, hmem, he⟩
      exact ⟨_, .inr ⟨pattern, hmem, rfl⟩, pattern, rfl, he⟩
  · simp only [List.mem_eraseDups, exists_asPathLanguage_error_iff]

/-- Names that all write something have a domain. -/
theorem exists_domain_eq_ok (hcommunities : ∀ text ∈ names.communities, Community.read? text ≠ none)
    (hregexes : ∀ p ∈ names.communityRegexes, ∃ a, matchingCommunities p = .ok a)
    (hpaths : ∀ p ∈ names.asPathRegexes, ∃ a, matchingAsPaths p = .ok a) :
    ∃ d, names.domain = .ok d := by
  cases hd : names.domain with
  | ok d => exact ⟨d, rfl⟩
  | error e =>
    exfalso
    obtain ⟨m, hm, hinvalid⟩ := exists_domain_error_iff.1 ⟨e, hd⟩
    cases hinvalid with
    | community h => exact hcommunities _ hm h
    | communityRegex h =>
      obtain ⟨a, ha⟩ := hregexes _ hm
      nomatch ha.symm.trans h
    | asPathRegex h =>
      obtain ⟨a, ha⟩ := hpaths _ hm
      nomatch ha.symm.trans h

/-- **What the names list is found** in their domain. -/
theorem finds_of_has (hd : names.domain = .ok d) (h : names.Has m) : d.Finds m := by
  have hnone : ¬∃ m, names.Has m ∧ m.Invalid := by
    rw [← exists_domain_error_iff]
    rintro ⟨e, he⟩
    exact nomatch hd.symm.trans he
  have hlists := exists_of_domain hd
  cases m with
  | community text =>
    cases hread : Community.read? text with
    | none => exact absurd ⟨_, h, .community hread⟩ hnone
    | some c =>
      obtain ⟨ns, hns⟩ := exists_communities?_of_lists hd (.literal h hread)
      exact ⟨c, ns, hread, hns⟩
  | communityRegex pattern => exact exists_communities?_of_lists hd (.regex h)
  | asPathRegex pattern => exact exists_asPaths? hd h
  | nextHopInterface name =>
    obtain ⟨_, _, _, -, -, -, -, rfl⟩ := hlists
    exact List.mem_eraseDups.2 h
  | track name =>
    obtain ⟨_, _, _, -, -, -, -, rfl⟩ := hlists
    exact List.mem_eraseDups.2 h
  | sourceVrf name =>
    obtain ⟨_, _, _, -, -, -, -, rfl⟩ := hlists
    exact List.mem_eraseDups.2 h

end NameList

/-! ### Constraints without a formula -/

namespace Constraint

/-- Some community inside the constraint is named in both ways or in none. -/
def Ambiguous (c : Constraint) : Prop :=
  ∃ literal regex, OccursIn (.community literal regex) c ∧ literal.isSome = regex.isSome

theorem ambiguous_not {c : Constraint} : Ambiguous (.not c) ↔ c.Ambiguous := by
  simp [Ambiguous, occursIn_not]

theorem ambiguous_allOf {cs : List Constraint} :
    Ambiguous (.allOf cs) ↔ ∃ c ∈ cs, c.Ambiguous := by
  simp only [Ambiguous, occursIn_allOf, reduceCtorEq, false_or]
  exact ⟨fun ⟨l, r, ⟨c, hc, h⟩, heq⟩ => ⟨c, hc, l, r, h, heq⟩,
    fun ⟨c, hc, l, r, h, heq⟩ => ⟨l, r, ⟨c, hc, h⟩, heq⟩⟩

theorem ambiguous_anyOf {cs : List Constraint} :
    Ambiguous (.anyOf cs) ↔ ∃ c ∈ cs, c.Ambiguous := by
  simp only [Ambiguous, occursIn_anyOf, reduceCtorEq, false_or]
  exact ⟨fun ⟨l, r, ⟨c, hc, h⟩, heq⟩ => ⟨c, hc, l, r, h, heq⟩,
    fun ⟨c, hc, l, r, h, heq⟩ => ⟨l, r, ⟨c, hc, h⟩, heq⟩⟩

/-- A community is named in exactly one way, or its constraint is ambiguous. -/
theorem exists_communityPattern_iff {literal : Option Community} {regex : Option String} :
    (∃ pattern, communityPattern literal regex = .ok pattern) ↔ literal.isSome ≠ regex.isSome := by
  cases literal <;> cases regex <;> simp [communityPattern]

section
variable {d : Domain} {l : Layout} {s : Store}

/-- What is named in one way, and mentioned, is looked up successfully. -/
theorem exists_of_finds {literal : Option Community} {regex : Option String}
    {pattern : CommunityPattern} (hpattern : communityPattern literal regex = .ok pattern)
    (h : ∀ m, Mentions (.community literal regex) m → d.Finds m) :
    ∃ ns, d.communities? pattern = some ns := by
  match literal, regex with
  | some c, none =>
    obtain rfl := Except.ok.inj hpattern
    obtain ⟨b, ns, hb, hns⟩ := h _ ⟨_, .here, .literal c none⟩
    obtain rfl := Option.some.inj ((Community.read?_text c).symm.trans hb)
    exact ⟨ns, hns⟩
  | none, some p =>
    obtain rfl := Except.ok.inj hpattern
    exact h _ ⟨_, .here, .regex none p⟩
  | none, none => exact nomatch hpattern
  | some _, some _ => exact nomatch hpattern

mutual
/-- **Everything is registered** if all that is mentioned is found and nothing is ambiguous. -/
theorem registered_iff : ∀ c : Constraint, (∀ m, c.Mentions m → d.Finds m) →
    (c.Registered d ↔ ¬c.Ambiguous)
  | .community literal regex, h => by
    have hleaf : Ambiguous (.community literal regex) ↔ literal.isSome = regex.isSome := by
      constructor
      · rintro ⟨_, _, ⟨⟩, heq⟩
        exact heq
      · exact fun heq => ⟨_, _, .here, heq⟩
    rw [hleaf, ← ne_eq, ← exists_communityPattern_iff, Registered]
    constructor
    · rintro ⟨pattern, _, hpattern, -⟩
      exact ⟨pattern, hpattern⟩
    · rintro ⟨pattern, hpattern⟩
      obtain ⟨ns, hns⟩ := exists_of_finds hpattern h
      exact ⟨pattern, ns, hpattern, hns⟩
  | .asPath _, h => iff_of_true (h _ ⟨_, .here, .asPath _⟩) (by rintro ⟨_, _, ⟨⟩, _⟩)
  | .nextHopInterface _, h =>
    iff_of_true (h _ ⟨_, .here, .nextHopInterface _⟩) (by rintro ⟨_, _, ⟨⟩, _⟩)
  | .track _, h => iff_of_true (h _ ⟨_, .here, .track _⟩) (by rintro ⟨_, _, ⟨⟩, _⟩)
  | .sourceVrf _, h => iff_of_true (h _ ⟨_, .here, .sourceVrf _⟩) (by rintro ⟨_, _, ⟨⟩, _⟩)
  | .not c, h => by
    rw [ambiguous_not]
    exact registered_iff c fun m hm => h m (mentions_not.2 hm)
  | .allOf cs, h => by
    rw [ambiguous_allOf]
    exact allRegistered_iff cs fun m hm => h m (mentions_allOf.2 hm)
  | .anyOf cs, h => by
    rw [ambiguous_anyOf]
    exact allRegistered_iff cs fun m hm => h m (mentions_anyOf.2 hm)
  | .protocol _, _ | .originType _, _ | .within _ _ _, _ | .prefixWithin _ _ _, _
  | .nextHopWithin _, _ => iff_of_true trivial (by rintro ⟨_, _, ⟨⟩, _⟩)

theorem allRegistered_iff : ∀ cs : List Constraint,
    (∀ m, (∃ c ∈ cs, c.Mentions m) → d.Finds m) →
      (AllRegistered d cs ↔ ¬∃ c ∈ cs, c.Ambiguous)
  | [], _ => iff_of_true trivial nofun
  | c :: cs, h => by
    rw [AllRegistered, List.exists_mem_cons_iff, not_or,
      registered_iff c fun m hm => h m ⟨c, List.mem_cons_self, hm⟩,
      allRegistered_iff cs fun m ⟨b, hb, hm⟩ => h m ⟨b, List.mem_cons_of_mem _ hb, hm⟩]
end

/-! Formulas that fail -/

/-- If the computation fails, then because a community is named in both ways or in none. -/
def FailsAmbiguous {α : Type} (m : FormulaBuild α) : Prop :=
  ∀ s e, (m.run s).1 = .error e → e = .ambiguousCommunity

namespace FailsAmbiguous

variable {α β : Type} {m : FormulaBuild α} {k : α → FormulaBuild β}

theorem of_total (hm : Total m) : FailsAmbiguous m := fun s e he => by
  obtain ⟨a, ha⟩ := hm s
  exact nomatch ha.symm.trans he

theorem bind (hm : FailsAmbiguous m) (hk : ∀ a, FailsAmbiguous (k a)) :
    FailsAmbiguous (m >>= k) := by
  intro s e he
  rw [ExceptT.run_bind] at he
  rcases hms : m.run s with ⟨x, t⟩
  simp only [Bind.bind, StateT.bind, hms] at he
  cases x with
  | ok a => exact hk a t e he
  | error e' =>
    obtain rfl : e' = e := Except.error.inj he
    exact hm s e' (by rw [hms])

end FailsAmbiguous

mutual
/-- **A constraint** of which everything mentioned is found has a formula, or is ambiguous. -/
theorem failsAmbiguous_formula (hl : l.Over d s) : ∀ c : Constraint,
    (∀ m, c.Mentions m → d.Finds m) → FailsAmbiguous (c.formula l d)
  | .community literal regex, h => by
    rw [Constraint.formula]
    cases hpattern : communityPattern literal regex with
    | error e =>
      intro s e' he
      have hambiguous : e = .ambiguousCommunity := by
        revert hpattern
        cases literal <;> cases regex <;> simp +contextual [communityPattern, eq_comm]
      obtain rfl : e = e' := Except.error.inj he
      exact hambiguous
    | ok pattern =>
      obtain ⟨ns, hns⟩ := exists_of_finds hpattern h
      exact .of_total (.liftM_bind rfl (by simp only [hns]; exact .lift _))
  | .not c, h => .bind (failsAmbiguous_formula hl c fun m hm => h m (mentions_not.2 hm))
      fun _ => .of_total (.lift _)
  | .allOf cs, h => .bind (failsAmbiguous_formulas hl cs fun m hm => h m (mentions_allOf.2 hm))
      fun _ => .of_total (.lift _)
  | .anyOf cs, h => .bind (failsAmbiguous_formulas hl cs fun m hm => h m (mentions_anyOf.2 hm))
      fun _ => .of_total (.lift _)
  | .asPath _, h => .of_total (total_formula hl _ (h _ ⟨_, .here, .asPath _⟩))
  | .nextHopInterface _, h =>
    .of_total (total_formula hl _ (h _ ⟨_, .here, .nextHopInterface _⟩))
  | .track _, h => .of_total (total_formula hl _ (h _ ⟨_, .here, .track _⟩))
  | .sourceVrf _, h => .of_total (total_formula hl _ (h _ ⟨_, .here, .sourceVrf _⟩))
  | .protocol _, _ | .originType _, _ | .within _ _ _, _ | .prefixWithin _ _ _, _
  | .nextHopWithin _, _ => .of_total (total_formula hl _ trivial)

theorem failsAmbiguous_formulas (hl : l.Over d s) : ∀ cs : List Constraint,
    (∀ m, (∃ c ∈ cs, c.Mentions m) → d.Finds m) → FailsAmbiguous (Constraint.formulas l d cs)
  | [], _ => .of_total (.pure _)
  | c :: cs, h =>
    .bind (failsAmbiguous_formula hl c fun m hm => h m ⟨c, List.mem_cons_self, hm⟩) fun _ =>
      .bind (failsAmbiguous_formulas hl cs fun m ⟨b, hb, hm⟩ =>
        h m ⟨b, List.mem_cons_of_mem _ hb, hm⟩) fun _ => .of_total (.pure _)
end

end

end Constraint
end RouteSolver
