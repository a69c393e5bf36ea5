import Frontend.Proofs.Except
import Frontend.Proofs.Run
import Frontend.Proofs.Types.Solution

/-!
# Canonical repositories

A repository is made canonical by a list of representatives: every type gets the term of
its representative, in which every part is replaced by its own representative. The runs
of function types are written in the order in which their representatives are met first,
and each of them once. So a second pass with the same list meets the same representatives
in the same order, and changes nothing. This holds whatever the types are parts of, also
if they are parts of themselves.
-/

namespace Frontend

/-- The run of a function type lies in a pool of this size. -/
def Term.RunsWithin (size : Nat) : Term -> Prop
  | .function start stop => start ≤ stop ∧ stop ≤ size
  | .unbound | .base _ | .pointer _ => True

theorem Term.RunsWithin.mono
    {size larger : Nat}
    {term : Term}
    (within : term.RunsWithin size)
    (le : size ≤ larger) :
    term.RunsWithin larger := by
  cases term with
  | function start stop => exact ⟨within.1, Nat.le_trans within.2 le⟩
  | unbound | base | pointer => trivial

theorem Layer.map_injective
    {Part Other : Type}
    {change : Part -> Other}
    (injective : Function.Injective change) :
    Function.Injective (Layer.map change) := by
  intro left right same
  cases left <;> cases right <;> simp_all [Layer.map, injective.eq_iff, List.map_inj_right]

namespace Repository

variable
  {repository canonical : Repository}
  {representatives : Array TypeId}
  {pool longer : Array TypeId}
  {original term : Term}

/-! ## Terms -/

theorem representative_eq_ok {id top : TypeId} :
    representative representatives id = .ok top ↔ representatives[id]? = some top := by
  unfold representative
  split <;> simp_all

theorem mapM_representative_eq_ok {ids tops : List TypeId} :
    ids.mapM (representative representatives) = .ok tops ↔
      ids.map (representatives[·]?) = tops.map some := by
  rw [mapM_eq_ok_iff, ← List.forall₂_eq_eq_eq, List.forall₂_map_left_iff,
    List.forall₂_map_right_iff]
  simp only [representative_eq_ok]

/-- The types in a term are the parts of what it says. -/
theorem termSubtypes_eq_elim (repository : Repository) (term : Term) :
    repository.termSubtypes term = (repository.layerOfTerm? term).elim [] Layer.parts := by
  cases term <;> rfl

/-- Over the pool, the term says what the first one says of representatives. Its run
lies in the pool. -/
structure Restates
    (repository : Repository)
    (representatives : Array TypeId)
    (original : Term)
    (pool : Array TypeId)
    (term : Term) : Prop where
  within : term.RunsWithin pool.size
  layer : ∀ canonical : Repository, canonical.pool = pool ->
    (repository.layerOfTerm? original).map (Layer.map (representatives[·]?)) =
      (canonical.layerOfTerm? term).map (Layer.map some)

/-- A run inside the pool stays the same when words are added. -/
theorem Restates.extend
    (restates : Restates repository representatives original pool term)
    (extended : Extends pool longer) :
    Restates repository representatives original longer term := by
  refine ⟨restates.within.mono extended.size_le, fun canonical samePool => ?_⟩
  have before := restates.layer { canonical with pool } rfl
  obtain ⟨run, rfl⟩ := extended
  cases term with
  | unbound | base | pointer => exact before
  | function start stop =>
      rw [before]
      simp only [layerOfTerm?, termSubtypes, samePool]
      rw [extract_append_list _ _ _ restates.within.2]

/-- The types in the term are the representatives of those in the first one. -/
theorem Restates.termSubtypes
    (restates : Restates repository representatives original canonical.pool term) :
    (repository.termSubtypes original).map (representatives[·]?) =
      (canonical.termSubtypes term).map some := by
  have layer := congrArg (Option.elim · [] Layer.parts) (restates.layer canonical rfl)
  rw [termSubtypes_eq_elim, termSubtypes_eq_elim]
  revert layer
  cases repository.layerOfTerm? original <;> cases canonical.layerOfTerm? term <;>
    simp [Layer.parts_map]

/-- What the canonical term of a type is, and where its run is written. -/
theorem restates_of_canonicalTerm
    (made : repository.canonicalTerm representatives pool original = .ok (term, longer)) :
    Extends pool longer ∧ Restates repository representatives original longer term := by
  cases original with
  | unbound | base =>
      cases made
      exact ⟨.refl pool, trivial, fun _ _ => rfl⟩
  | pointer pointee =>
      obtain ⟨top, represented, made⟩ := exists_of_bind_eq_ok made
      cases made
      refine ⟨.refl pool, trivial, fun _ _ => ?_⟩
      simp [layerOfTerm?, Layer.map, representative_eq_ok.mp represented]
  | function start stop =>
      obtain ⟨run, represented, made⟩ := exists_of_bind_eq_ok made
      cases made
      refine ⟨.append pool run, ⟨(Extends.append pool run).size_le, Nat.le_refl _⟩,
        fun canonical samePool => ?_⟩
      simp only [layerOfTerm?, Option.map_some, Layer.map, Option.some.injEq,
        Layer.function.injEq]
      rw [mapM_representative_eq_ok.mp represented, termSubtypes, samePool,
        extract_append_list_self]

/-- A term has a canonical form if all of its parts have representatives. -/
theorem exists_canonicalTerm
    (represented : ∀ part ∈ repository.termSubtypes original,
      ∃ top, representatives[part]? = some top)
    (pool : Array TypeId) :
    ∃ result, repository.canonicalTerm representatives pool original = .ok result := by
  cases original with
  | unbound => exact ⟨_, rfl⟩
  | base base => exact ⟨_, rfl⟩
  | pointer pointee =>
      obtain ⟨top, found⟩ := represented pointee (by simp [termSubtypes])
      rw [canonicalTerm, representative_eq_ok.mpr found]
      exact ⟨_, rfl⟩
  | function start stop =>
      have each : ∀ part ∈ repository.termSubtypes (.function start stop),
          ∃ top, representative representatives part = .ok top := by
        intro part member
        obtain ⟨top, found⟩ := represented part member
        exact ⟨top, representative_eq_ok.mpr found⟩
      obtain ⟨run, found⟩ := exists_mapM_eq_ok each
      rw [canonicalTerm, found]
      exact ⟨_, rfl⟩

/-- Every type that the list names is its own representative. -/
def AreFixed (representatives : Array TypeId) : Prop :=
  ∀ top ∈ representatives, representatives[top]? = some top

theorem AreFixed.getElem?_eq
    (fixed : AreFixed representatives)
    {id top : TypeId}
    (represented : representatives[id]? = some top) :
    representatives[top]? = some top :=
  fixed top (Array.mem_of_getElem? represented)

/-- The canonical form of a canonical term is the term itself, with the same run at the
same place. -/
theorem canonicalTerm_again
    (fixed : AreFixed representatives)
    (made : repository.canonicalTerm representatives pool original = .ok (term, longer))
    (extended : Extends longer canonical.pool) :
    canonical.canonicalTerm representatives pool term = .ok (term, longer) := by
  cases original with
  | unbound | base =>
      cases made
      rfl
  | pointer pointee =>
      obtain ⟨top, represented, made⟩ := exists_of_bind_eq_ok made
      cases made
      have again := fixed.getElem?_eq (representative_eq_ok.mp represented)
      rw [canonicalTerm, representative_eq_ok.mpr again]
      rfl
  | function start stop =>
      obtain ⟨run, represented, made⟩ := exists_of_bind_eq_ok made
      cases made
      obtain ⟨more, samePool⟩ := extended
      have read : canonical.termSubtypes (.function pool.size (pool ++ run).size) = run := by
        rw [termSubtypes, samePool, extract_append_list _ _ _ (Nat.le_refl _),
          extract_append_list_self]
      have again : run.mapM (representative representatives) = .ok run := by
        rw [mapM_representative_eq_ok] at represented ⊢
        refine List.map_congr_left fun top member => ?_
        have listed : some top ∈ run.map some := List.mem_map_of_mem member
        rw [← represented, List.mem_map] at listed
        obtain ⟨part, -, found⟩ := listed
        exact fixed.getElem?_eq found
      rw [canonicalTerm, read, again]
      rfl

/-! ## One type after the other -/

namespace Canonicalization

variable {progress twin next later final : Canonicalization} {entry : TypeEntry}

/-- How the next type is added: with the term that is known for its representative, or
with a new one. -/
inductive Adds
    (repository : Repository)
    (representatives : Array TypeId)
    (progress : Canonicalization)
    (entry : TypeEntry) : Canonicalization -> Prop
  | known
      {top : TypeId}
      {term : Term}
      (represented : representatives[progress.entries.size]? = some top)
      (seen : progress.terms[top]? = some term) :
      Adds repository representatives progress entry
        { progress with entries := progress.entries.push { entry with term } }
  | new
      {top : TypeId}
      {original term : Term}
      {pool : Array TypeId}
      (represented : representatives[progress.entries.size]? = some top)
      (unseen : progress.terms[top]? = none)
      (found : repository.term top = .ok original)
      (made : repository.canonicalTerm representatives progress.pool original =
        .ok (term, pool)) :
      Adds repository representatives progress entry
        { entries := progress.entries.push { entry with term }
          pool
          terms := progress.terms.insert top term }

theorem canonicalEntry_eq_ok :
    repository.canonicalEntry representatives progress entry = .ok next ↔
      Adds repository representatives progress entry next := by
  constructor
  · intro added
    obtain ⟨top, represented, added⟩ := exists_of_bind_eq_ok added
    rw [representative_eq_ok] at represented
    split at added
    next term seen =>
      cases added
      exact .known represented seen
    next unseen =>
      obtain ⟨original, found, added⟩ := exists_of_bind_eq_ok added
      obtain ⟨⟨term, pool⟩, made, added⟩ := exists_of_bind_eq_ok added
      cases added
      exact .new represented unseen found made
  · intro adds
    cases adds with
    | known represented seen =>
        simp only [canonicalEntry, representative_eq_ok.mpr represented, bind, Except.bind, seen]
        rfl
    | new represented unseen found made =>
        simp only [canonicalEntry, representative_eq_ok.mpr represented, bind, Except.bind,
          unseen, found, made]
        rfl

/-- The entries are those of the types that were passed, each with the term that is kept
for its representative. The terms that are kept restate those of the repository. -/
structure Follows
    (repository : Repository)
    (representatives : Array TypeId)
    (passed : List TypeEntry)
    (progress : Canonicalization) : Prop where
  nodes : progress.entries.toList.map TypeEntry.node = passed.map TypeEntry.node
  kept : ∀ (id : TypeId) (entry : TypeEntry), progress.entries[id]? = some entry ->
    ∃ top, representatives[id]? = some top ∧ progress.terms[top]? = some entry.term
  restated : ∀ (top : TypeId) (term : Term), progress.terms[top]? = some term ->
    ∃ original, repository.term top = .ok original ∧
      Restates repository representatives original progress.pool term

theorem Follows.nil : Follows repository representatives [] {} :=
  ⟨rfl, by simp, by simp⟩

/-- The work goes on from one state to the other: nothing of it is given up. -/
structure Continues (progress later : Canonicalization) : Prop where
  entries : Extends progress.entries later.entries
  pool : Extends progress.pool later.pool
  terms : ∀ (top : TypeId) (term : Term),
    progress.terms[top]? = some term -> later.terms[top]? = some term

theorem Continues.refl (progress : Canonicalization) : Continues progress progress :=
  ⟨.refl _, .refl _, fun _ _ seen => seen⟩

theorem Continues.trans (first : Continues progress later) (second : Continues later final) :
    Continues progress final :=
  ⟨first.entries.trans second.entries, first.pool.trans second.pool,
    fun top term seen => second.terms top term (first.terms top term seen)⟩

theorem Adds.continues (adds : Adds repository representatives progress entry next) :
    Continues progress next := by
  cases adds with
  | known represented seen => exact ⟨.push _ _, .refl _, fun _ _ seen => seen⟩
  | @new top original term pool represented unseen found made =>
      refine ⟨.push _ _, (restates_of_canonicalTerm made).1, fun other known seen => ?_⟩
      rw [Std.HashMap.getElem?_insert, if_neg, seen]
      intro same
      rw [← eq_of_beq same, unseen] at seen
      cases seen

/-- An entry that is pushed is the last one, and the others stay. -/
theorem forall_getElem?_push
    {entries : Array TypeEntry}
    {holds : TypeId -> TypeEntry -> Prop}
    (before : ∀ id other, entries[id]? = some other -> holds id other)
    (last : holds entries.size entry) :
    ∀ id other, (entries.push entry)[id]? = some other -> holds id other := by
  intro id other present
  rw [Array.getElem?_push] at present
  split at present
  next isLast =>
    cases present
    rw [isLast]
    exact last
  next => exact before id other present

/-- Adding a type keeps to the repository. -/
theorem Adds.follows
    {passed : List TypeEntry}
    (adds : Adds repository representatives progress entry next)
    (follows : Follows repository representatives passed progress) :
    Follows repository representatives (passed ++ [entry]) next := by
  have continues := adds.continues
  have keeps : ∀ (id : TypeId) (other : TypeEntry), progress.entries[id]? = some other ->
      ∃ top, representatives[id]? = some top ∧ next.terms[top]? = some other.term := by
    intro id other present
    obtain ⟨top, represented, seen⟩ := follows.kept id other present
    exact ⟨top, represented, continues.terms top _ seen⟩
  cases adds with
  | known represented seen =>
      exact ⟨by simp [follows.nodes], forall_getElem?_push keeps ⟨_, represented, seen⟩,
        follows.restated⟩
  | @new top original term pool represented unseen found made =>
      refine ⟨by simp [follows.nodes],
        forall_getElem?_push keeps ⟨_, represented, Std.HashMap.getElem?_insert_self⟩,
        fun other known seen => ?_⟩
      obtain ⟨extended, restates⟩ := restates_of_canonicalTerm made
      rw [Std.HashMap.getElem?_insert] at seen
      split at seen
      next same =>
        cases seen
        rw [← eq_of_beq same]
        exact ⟨original, found, restates⟩
      next =>
        obtain ⟨earlier, earlierFound, earlierRestates⟩ := follows.restated other known seen
        exact ⟨earlier, earlierFound, earlierRestates.extend extended⟩

/-- Adding many types keeps to the repository, and goes on. -/
theorem Follows.foldlM
    {passed rest : List TypeEntry}
    (follows : Follows repository representatives passed progress)
    (folded : rest.foldlM (repository.canonicalEntry representatives) progress = .ok final) :
    Follows repository representatives (passed ++ rest) final ∧ Continues progress final := by
  induction rest generalizing passed progress with
  | nil =>
      cases folded
      rw [List.append_nil]
      exact ⟨follows, .refl _⟩
  | cons entry rest ih =>
      rw [List.foldlM_cons] at folded
      obtain ⟨next, added, folded⟩ := exists_of_bind_eq_ok folded
      have adds := canonicalEntry_eq_ok.mp added
      obtain ⟨finalFollows, continues⟩ := ih (adds.follows follows) folded
      rw [List.append_assoc, List.singleton_append] at finalFollows
      exact ⟨finalFollows, adds.continues.trans continues⟩

/-! ## The second pass -/

/-- Two passes have come equally far. -/
structure Same (progress twin : Canonicalization) : Prop where
  entries : twin.entries = progress.entries
  pool : twin.pool = progress.pool
  terms : ∀ top : TypeId, twin.terms[top]? = progress.terms[top]?

/-- In what the first pass ends with, a representative has the term that was kept for
it. -/
theorem Follows.term_eq
    {passed : List TypeEntry}
    (follows : Follows repository representatives passed final)
    (fixed : AreFixed representatives)
    (sameEntries : canonical.entries = final.entries)
    (whole : canonical.size = repository.size)
    {id top : TypeId}
    (represented : representatives[id]? = some top)
    (seen : final.terms[top]? = some term) :
    canonical.term top = .ok term := by
  obtain ⟨original, found, -⟩ := follows.restated top term seen
  have bound : top < final.entries.size := by
    rw [← sameEntries]
    exact Nat.lt_of_lt_of_eq ((repository.exists_term_iff top).mp ⟨original, found⟩) whole.symm
  obtain ⟨twice, representedTwice, kept⟩ :=
    follows.kept top _ (Array.getElem?_eq_getElem bound)
  rw [fixed.getElem?_eq represented, Option.some.injEq] at representedTwice
  rw [← representedTwice, seen, Option.some.injEq] at kept
  rw [Repository.term, Repository.entry, sameEntries, Array.getElem?_eq_getElem bound, kept]
  rfl

/-- A type is added to the second pass as it was to the first one. -/
theorem Adds.again
    {passed : List TypeEntry}
    (adds : Adds repository representatives progress entry next)
    (same : Same progress twin)
    (continues : Continues next final)
    (follows : Follows repository representatives passed final)
    (fixed : AreFixed representatives)
    (sameEntries : canonical.entries = final.entries)
    (samePool : canonical.pool = final.pool)
    (whole : canonical.size = repository.size) :
    ∃ added twinNext, next.entries = progress.entries.push added ∧
      Adds canonical representatives twin added twinNext ∧ Same next twinNext := by
  have sameSize : twin.entries.size = progress.entries.size := by rw [same.entries]
  cases adds with
  | @known top term represented seen =>
      refine ⟨_, _, rfl, .known (sameSize ▸ represented) ((same.terms top).trans seen), ?_⟩
      exact ⟨by rw [same.entries], same.pool, same.terms⟩
  | @new top original term pool represented unseen found made =>
      have seen : final.terms[top]? = some term :=
        continues.terms top term Std.HashMap.getElem?_insert_self
      have madeAgain : canonical.canonicalTerm representatives twin.pool term =
          .ok (term, pool) := by
        rw [same.pool]
        exact canonicalTerm_again fixed made (samePool ▸ continues.pool)
      refine ⟨_, _, rfl, .new (sameSize ▸ represented) ((same.terms top).trans unseen)
        (follows.term_eq fixed sameEntries whole represented seen) madeAgain, ?_⟩
      refine ⟨by rw [same.entries], rfl, fun other => ?_⟩
      rw [Std.HashMap.getElem?_insert, Std.HashMap.getElem?_insert, same.terms]

/-- The second pass goes through the result of the first one, and ends with it. -/
theorem Same.foldlM
    {passed rest : List TypeEntry}
    (same : Same progress twin)
    (folded : rest.foldlM (repository.canonicalEntry representatives) progress = .ok final)
    {before : List TypeEntry}
    (progressFollows : Follows repository representatives before progress)
    (follows : Follows repository representatives passed final)
    (fixed : AreFixed representatives)
    (sameEntries : canonical.entries = final.entries)
    (samePool : canonical.pool = final.pool)
    (whole : canonical.size = repository.size)
    {added : List TypeEntry}
    (split : final.entries.toList = progress.entries.toList ++ added) :
    ∃ twinFinal,
      added.foldlM (canonical.canonicalEntry representatives) twin = .ok twinFinal ∧
        Same final twinFinal := by
  -- The first pass has `rest` before it, and the second one what the first makes of it.
  induction rest generalizing progress twin before added with
  | nil =>
      cases folded
      obtain rfl : added = [] := by simpa using split
      exact ⟨twin, rfl, same⟩
  | cons entry rest ih =>
      rw [List.foldlM_cons] at folded
      obtain ⟨next, stepped, folded⟩ := exists_of_bind_eq_ok folded
      have adds := canonicalEntry_eq_ok.mp stepped
      have nextFollows := adds.follows progressFollows
      have continues := (nextFollows.foldlM folded).2
      obtain ⟨first, twinNext, pushed, twinAdds, nextSame⟩ :=
        adds.again same continues follows fixed sameEntries samePool whole
      obtain ⟨more, extended⟩ := continues.entries
      have nextSplit : final.entries.toList = next.entries.toList ++ more := by
        rw [extended, Array.toList_appendList]
      obtain rfl : added = first :: more := by
        rw [nextSplit, pushed, Array.toList_push, List.append_assoc,
          List.append_cancel_left_eq] at split
        exact split.symm
      obtain ⟨twinFinal, twinFolded, finalSame⟩ :=
        ih nextSame folded nextFollows nextSplit
      refine ⟨twinFinal, ?_, finalSame⟩
      rw [List.foldlM_cons, canonicalEntry_eq_ok.mpr twinAdds]
      exact twinFolded

end Canonicalization

/-! ## Whole repositories -/

theorem mapM_bases_eq_ok {bases tops : List (BaseType × TypeId)} :
    bases.mapM (fun pair => do return (pair.1, <- representative representatives pair.2)) =
        .ok tops ↔
      bases.map (fun pair => (pair.1, representatives[pair.2]?)) =
        tops.map fun pair => (pair.1, some pair.2) := by
  rw [mapM_eq_ok_iff, ← List.forall₂_eq_eq_eq, List.forall₂_map_left_iff,
    List.forall₂_map_right_iff]
  have each : ∀ pair top : BaseType × TypeId,
      (do return (pair.1, <- representative representatives pair.2) : Except Fault _) =
          .ok top ↔ (pair.1, representatives[pair.2]?) = (top.1, some top.2) := by
    intro pair top
    cases found : representatives[pair.2]? with
    | none => simp [representative, found, bind, Except.bind]
    | some id => simp [representative, found, bind, Except.bind, pure, Except.pure, Prod.ext_iff]
  simp only [each]

theorem canonicalize_eq_ok :
    repository.canonicalize representatives = .ok canonical ↔
      ∃ progress,
        repository.entries.toList.foldlM (repository.canonicalEntry representatives) {} =
            .ok progress ∧
          canonical.entries = progress.entries ∧ canonical.pool = progress.pool ∧
          repository.bases.map (fun pair => (pair.1, representatives[pair.2]?)) =
            canonical.bases.map fun pair => (pair.1, some pair.2) := by
  rw [Array.foldlM_toList]
  constructor
  · intro made
    obtain ⟨progress, folded, made⟩ := exists_of_bind_eq_ok made
    obtain ⟨bases, read, made⟩ := exists_of_bind_eq_ok made
    cases made
    exact ⟨progress, folded, rfl, rfl, mapM_bases_eq_ok.mp read⟩
  · rintro ⟨progress, folded, sameEntries, samePool, sameBases⟩
    have read := mapM_bases_eq_ok.mpr sameBases
    simp only [canonicalize, folded, bind, Except.bind] at read ⊢
    rw [read, ← sameEntries, ← samePool]
    rfl

theorem exists_entry_of_term
    {id : TypeId}
    (found : repository.term id = .ok term) :
    ∃ entry, repository.entries[id]? = some entry ∧ entry.term = term := by
  obtain ⟨entry, read, same⟩ := exists_of_bind_eq_ok found
  cases same
  unfold Repository.entry at read
  split at read
  next present =>
    cases read
    exact ⟨entry, present, rfl⟩
  next => cases read

section Result

variable (made : repository.canonicalize representatives = .ok canonical)

include made

/-- The repository that is made has the types of the other one. -/
theorem nodes_of_canonicalize :
    canonical.entries.toList.map TypeEntry.node = repository.entries.toList.map TypeEntry.node := by
  obtain ⟨progress, folded, sameEntries, -⟩ := canonicalize_eq_ok.mp made
  rw [sameEntries]
  exact (Canonicalization.Follows.nil.foldlM folded).1.nodes

theorem size_of_canonicalize : canonical.size = repository.size := by
  have lengths := congrArg List.length (nodes_of_canonicalize made)
  rwa [List.length_map, List.length_map, Array.length_toList, Array.length_toList] at lengths

/-- Every type has the term that is kept for its representative. The terms that are kept
restate those of the repository. -/
theorem exists_kept_of_canonicalize :
    ∃ kept : TypeId -> Option Term,
      (∀ id term, canonical.term id = .ok term ->
        ∃ top, representatives[id]? = some top ∧ kept top = some term) ∧
        ∀ top term, kept top = some term ->
          ∃ original, repository.term top = .ok original ∧
            Restates repository representatives original canonical.pool term := by
  obtain ⟨progress, folded, sameEntries, samePool, -⟩ := canonicalize_eq_ok.mp made
  have follows := (Canonicalization.Follows.nil.foldlM folded).1
  rw [samePool]
  refine ⟨(progress.terms[·]?), fun id term found => ?_, follows.restated⟩
  obtain ⟨entry, present, rfl⟩ := exists_entry_of_term found
  exact follows.kept id entry (sameEntries ▸ present)

/-- Every type has a term that restates the one of its representative. -/
theorem exists_term_of_canonicalize
    {id : TypeId}
    (bound : id < repository.size) :
    ∃ top original term,
      representatives[id]? = some top ∧ repository.term top = .ok original ∧
        canonical.term id = .ok term ∧
        Restates repository representatives original canonical.pool term := by
  rw [← size_of_canonicalize made, ← exists_term_iff] at bound
  obtain ⟨term, found⟩ := bound
  obtain ⟨kept, keeps, restated⟩ := exists_kept_of_canonicalize made
  obtain ⟨top, represented, keptTerm⟩ := keeps id term found
  obtain ⟨original, originalFound, restates⟩ := restated top term keptTerm
  exact ⟨top, original, term, represented, originalFound, found, restates⟩

/-- Types with the same representative have the same term. -/
theorem term_eq_of_canonicalize
    {id other : TypeId}
    (bound : id < repository.size)
    (otherBound : other < repository.size)
    (same : representatives[id]? = representatives[other]?) :
    canonical.term id = canonical.term other := by
  rw [← size_of_canonicalize made, ← exists_term_iff] at bound otherBound
  obtain ⟨term, found⟩ := bound
  obtain ⟨otherTerm, otherFound⟩ := otherBound
  obtain ⟨kept, keeps, -⟩ := exists_kept_of_canonicalize made
  obtain ⟨top, represented, keptTerm⟩ := keeps id term found
  obtain ⟨otherTop, otherRepresented, otherKept⟩ := keeps other otherTerm otherFound
  rw [represented, otherRepresented, Option.some.injEq] at same
  rw [same, otherKept, Option.some.injEq] at keptTerm
  rw [found, otherFound, keptTerm]

/-- A second pass with the same representatives changes nothing. -/
theorem canonicalize_again (fixed : AreFixed representatives) :
    canonical.canonicalize representatives = .ok canonical := by
  have whole := size_of_canonicalize made
  obtain ⟨progress, folded, sameEntries, samePool, sameBases⟩ := canonicalize_eq_ok.mp made
  have follows := (Canonicalization.Follows.nil.foldlM folded).1
  have start : Canonicalization.Same {} {} := ⟨rfl, rfl, fun _ => rfl⟩
  obtain ⟨twin, twinFolded, same⟩ :=
    start.foldlM folded .nil follows fixed sameEntries samePool whole rfl
  rw [canonicalize_eq_ok]
  refine ⟨twin, ?_, by rw [sameEntries, same.entries], by rw [samePool, same.pool], ?_⟩
  · rw [sameEntries]
    exact twinFolded
  · refine List.map_congr_left fun pair member => ?_
    have listed : (pair.1, some pair.2) ∈ canonical.bases.map fun pair => (pair.1, some pair.2) :=
      List.mem_map_of_mem member
    rw [← sameBases, List.mem_map] at listed
    obtain ⟨origin, -, represented⟩ := listed
    rw [fixed.getElem?_eq (Prod.ext_iff.mp represented).2]

end Result

/-- The types in the terms of a repository exist. -/
def PartsExist (repository : Repository) : Prop :=
  ∀ entry ∈ repository.entries, ∀ part ∈ repository.termSubtypes entry.term,
    part < repository.size

/-- A repository can be made canonical if its types have representatives in it. -/
theorem exists_canonicalize
    (represented : ∀ id, id < repository.size ->
      ∃ top, representatives[id]? = some top ∧ top < repository.size)
    (parts : repository.PartsExist)
    (bases : ∀ pair ∈ repository.bases, pair.2 < repository.size) :
    ∃ canonical, repository.canonicalize representatives = .ok canonical := by
  have steps : ∀ passed entry rest (progress : Canonicalization),
      passed ++ entry :: rest = repository.entries.toList ->
        Canonicalization.Follows repository representatives passed progress ->
          ∃ next, repository.canonicalEntry representatives progress entry = .ok next ∧
            Canonicalization.Follows repository representatives (passed ++ [entry]) next := by
    intro passed entry rest progress whole follows
    suffices added :
        ∃ next, Canonicalization.Adds repository representatives progress entry next by
      obtain ⟨next, adds⟩ := added
      exact ⟨next, Canonicalization.canonicalEntry_eq_ok.mpr adds, adds.follows follows⟩
    -- The entry has the number of those that were passed.
    have bound : progress.entries.size < repository.size := by
      have passedLength := congrArg List.length follows.nodes
      have length := congrArg List.length whole
      simp only [List.length_map, List.length_append, List.length_cons, Array.length_toList]
        at passedLength length
      rw [size]
      omega
    obtain ⟨top, topRepresents, topBound⟩ := represented _ bound
    cases seen : progress.terms[top]? with
    | some term => exact ⟨_, .known topRepresents seen⟩
    | none =>
        obtain ⟨original, found⟩ := (repository.exists_term_iff top).mpr topBound
        obtain ⟨topEntry, present, rfl⟩ := exists_entry_of_term found
        have partsRepresented : ∀ part ∈ repository.termSubtypes topEntry.term,
            ∃ other, representatives[part]? = some other := by
          intro part member
          obtain ⟨other, otherRepresents, -⟩ :=
            represented part (parts topEntry (Array.mem_of_getElem? present) part member)
          exact ⟨other, otherRepresents⟩
        obtain ⟨⟨term, pool⟩, canonicalMade⟩ :=
          exists_canonicalTerm partsRepresented progress.pool
        exact ⟨_, .new topRepresents seen found canonicalMade⟩
  obtain ⟨progress, folded, -⟩ := exists_foldlM_eq_ok
    (Canonicalization.Follows repository representatives) steps .nil
  have each : ∀ pair ∈ repository.bases, ∃ result : BaseType × TypeId,
      (do return (pair.1, <- representative representatives pair.2) : Except Fault _) =
        .ok result := by
    intro pair member
    obtain ⟨top, topRepresents, -⟩ := represented pair.2 (bases pair member)
    rw [representative_eq_ok.mpr topRepresents]
    exact ⟨_, rfl⟩
  obtain ⟨tops, read⟩ := exists_mapM_eq_ok each
  exact ⟨⟨progress.entries, progress.pool, tops⟩,
    canonicalize_eq_ok.mpr ⟨progress, folded, rfl, rfl, mapM_bases_eq_ok.mp read⟩⟩

/-! ## Repositories that operations make -/

/-- The operations make the repository, from the empty one on. Which types are parts of
others, they do not check. -/
inductive Built : Repository -> Prop
  | empty : Built {}
  | fresh
      {repository : Repository}
      (built : Built repository)
      (node : Option NodeId) :
      Built (repository.fresh node).2
  | base
      {repository : Repository}
      (built : Built repository)
      (kind : BaseType) :
      Built (repository.base kind).2
  | pointer
      {repository : Repository}
      (built : Built repository)
      (pointee : TypeId) :
      Built (repository.pointer pointee).2
  | function
      {repository : Repository}
      (built : Built repository)
      (subtypes : List TypeId) :
      Built (repository.function subtypes).2
  | canonical
      {repository canonical : Repository}
      {representatives : Array TypeId}
      (built : Built repository)
      (made : repository.canonicalize representatives = .ok canonical) :
      Built canonical

/-- The runs of function types lie in the pool. -/
def RunsLieInPool (repository : Repository) : Prop :=
  ∀ entry ∈ repository.entries, entry.term.RunsWithin repository.pool.size

/-- The types that stand for base types exist. -/
def BasesExist (repository : Repository) : Prop :=
  ∀ pair ∈ repository.bases, pair.2 < repository.size

theorem RunsLieInPool.push
    (runs : repository.RunsLieInPool)
    (node : Option NodeId)
    (within : term.RunsWithin repository.pool.size) :
    (repository.push node term).2.RunsLieInPool := by
  intro entry member
  rcases Array.mem_push.mp member with earlier | rfl
  · exact runs entry earlier
  · exact within

theorem BasesExist.push
    (bases : repository.BasesExist)
    (node : Option NodeId)
    (term : Term) :
    (repository.push node term).2.BasesExist := by
  intro pair member
  have before := bases pair member
  simp only [Repository.push, size, Array.size_push]
  exact Nat.lt_succ_of_lt before

/-- What holds of every repository that operations make. -/
theorem Built.runsLieInPool_and_basesExist (built : repository.Built) :
    repository.RunsLieInPool ∧ repository.BasesExist := by
  induction built with
  | empty => exact ⟨by simp [RunsLieInPool], by simp [BasesExist]⟩
  | fresh _ node sound => exact ⟨sound.1.push node trivial, sound.2.push node _⟩
  | @base repository _ kind sound =>
      unfold Repository.base
      split
      next => exact sound
      next =>
        refine ⟨sound.1.push none trivial, fun pair member => ?_⟩
        rcases List.mem_append.mp member with earlier | last
        · exact sound.2.push none _ pair earlier
        · rw [List.mem_singleton.mp last]
          simp [push, size]
  | pointer _ pointee sound => exact ⟨sound.1.push none trivial, sound.2.push none _⟩
  | @function repository _ subtypes sound =>
      have longer : repository.pool.size ≤ (repository.pool ++ subtypes).size :=
        (Extends.append _ _).size_le
      have runs : { repository with pool := repository.pool ++ subtypes }.RunsLieInPool :=
        fun entry member => (sound.1 entry member).mono longer
      have bases : { repository with pool := repository.pool ++ subtypes }.BasesExist := sound.2
      exact ⟨runs.push none ⟨longer, Nat.le_refl _⟩, bases.push none _⟩
  | @canonical repository canonical representatives _ made sound =>
      constructor
      · intro entry member
        obtain ⟨id, bound, present⟩ := Array.mem_iff_getElem.mp member
        have inside : id < repository.size := size_of_canonicalize made ▸ bound
        obtain ⟨_, _, term, _, _, found, restates⟩ := exists_term_of_canonicalize made inside
        obtain ⟨other, otherPresent, rfl⟩ := exists_entry_of_term found
        rw [Array.getElem?_eq_getElem bound, present, Option.some.injEq] at otherPresent
        rw [otherPresent]
        exact restates.within
      · intro pair member
        obtain ⟨-, -, -, -, sameBases⟩ := canonicalize_eq_ok.mp made
        have listed : (pair.1, some pair.2) ∈
            canonical.bases.map fun pair => (pair.1, some pair.2) := List.mem_map_of_mem member
        rw [← sameBases, List.mem_map] at listed
        obtain ⟨origin, originMember, same⟩ := listed
        obtain ⟨top, _, _, represented, found, -⟩ :=
          exists_term_of_canonicalize made (sound.2 origin originMember)
        rw [represented, Prod.mk.injEq, Option.some.injEq] at same
        rw [size_of_canonicalize made, ← same.2]
        exact (repository.exists_term_iff top).mp ⟨_, found⟩

/-- What is made of a repository by a list of representatives. -/
structure IsCanonical
    (repository : Repository)
    (representatives : Array TypeId)
    (canonical : Repository) : Prop where
  size : canonical.size = repository.size
  nodes : canonical.entries.toList.map TypeEntry.node =
    repository.entries.toList.map TypeEntry.node
  /-- Every type has the term of its representative. -/
  term : ∀ id top, id < repository.size -> representatives[id]? = some top ->
    canonical.term id = canonical.term top
  /-- It says what the representative said before, of representatives. -/
  layer : ∀ id top, id < repository.size -> representatives[id]? = some top ->
    (repository.layer? top).map (Layer.map (representatives[·]?)) =
      (canonical.layer? id).map (Layer.map some)
  subtypes : ∀ id top, id < repository.size -> representatives[id]? = some top ->
    ∃ before after,
      repository.subtypes top = .ok before ∧ canonical.subtypes id = .ok after ∧
        before.map (representatives[·]?) = after.map some
  represented : ∀ id parts, canonical.subtypes id = .ok parts ->
    ∀ part ∈ parts, part < canonical.size ∧ representatives[part]? = some part
  runs : canonical.RunsLieInPool

/-- What a repository is made into by representatives that all exist. -/
theorem isCanonical_of_canonicalize
    (made : repository.canonicalize representatives = .ok canonical)
    (inside : ∀ top ∈ representatives, top < repository.size)
    (fixed : AreFixed representatives)
    (runs : canonical.RunsLieInPool) :
    IsCanonical repository representatives canonical where
  size := size_of_canonicalize made
  nodes := nodes_of_canonicalize made
  term := by
    intro id top bound represented
    have topBound := inside top (Array.mem_of_getElem? represented)
    exact term_eq_of_canonicalize made bound topBound
      (represented.trans (fixed.getElem?_eq represented).symm)
  layer := by
    intro id top bound represented
    obtain ⟨other, original, term, otherRepresents, found, canonicalFound, restates⟩ :=
      exists_term_of_canonicalize made bound
    obtain rfl : top = other := Option.some.inj (represented.symm.trans otherRepresents)
    simp only [layer?, found, canonicalFound]
    exact restates.layer canonical rfl
  subtypes := by
    intro id top bound represented
    obtain ⟨other, original, term, otherRepresents, found, canonicalFound, restates⟩ :=
      exists_term_of_canonicalize made bound
    obtain rfl : top = other := Option.some.inj (represented.symm.trans otherRepresents)
    refine ⟨repository.termSubtypes original, canonical.termSubtypes term, ?_, ?_,
      restates.termSubtypes⟩
    · rw [subtypes, found]
      rfl
    · rw [subtypes, canonicalFound]
      rfl
  represented := by
    intro id parts read part member
    obtain ⟨term, canonicalFound, same⟩ := exists_of_bind_eq_ok read
    cases same
    have bound := (canonical.exists_term_iff id).mp ⟨term, canonicalFound⟩
    rw [size_of_canonicalize made] at bound ⊢
    obtain ⟨top, original, other, -, -, otherFound, restates⟩ :=
      exists_term_of_canonicalize made bound
    obtain rfl : term = other := Except.ok.inj (canonicalFound.symm.trans otherFound)
    have listed : some part ∈ (canonical.termSubtypes term).map some :=
      List.mem_map_of_mem member
    rw [← restates.termSubtypes, List.mem_map] at listed
    obtain ⟨origin, -, originRepresented⟩ := listed
    exact ⟨inside part (Array.mem_of_getElem? originRepresented),
      fixed.getElem?_eq originRepresented⟩
  runs := runs

/-- Canonicalization is a fixpoint. With representatives that exist and represent
themselves, a repository whose parts exist has a canonical form, and to make that one
canonical changes nothing. All runs that are read lie in their pools. -/
theorem canonicalize_is_fixpoint
    (built : repository.Built)
    (parts : repository.PartsExist)
    (covers : repository.size ≤ representatives.size)
    (inside : ∀ top ∈ representatives, top < repository.size)
    (fixed : AreFixed representatives) :
    repository.RunsLieInPool ∧
      ∃ canonical, repository.canonicalize representatives = .ok canonical ∧
        IsCanonical repository representatives canonical ∧
        canonical.canonicalize representatives = .ok canonical := by
  obtain ⟨runs, bases⟩ := built.runsLieInPool_and_basesExist
  have represented : ∀ id, id < repository.size ->
      ∃ top, representatives[id]? = some top ∧ top < repository.size := by
    intro id bound
    have present := Array.getElem?_eq_getElem (Nat.lt_of_lt_of_le bound covers)
    exact ⟨_, present, inside _ (Array.mem_of_getElem? present)⟩
  obtain ⟨canonical, made⟩ := exists_canonicalize represented parts bases
  have canonicalRuns := (Built.canonical built made).runsLieInPool_and_basesExist.1
  exact ⟨runs, canonical, made, isCanonical_of_canonicalize made inside fixed canonicalRuns,
    canonicalize_again made fixed⟩

/-- A pointer to itself, a function and a function of it, and an unknown type. -/
def entangled : Repository :=
  let (self, repository) := (({} : Repository).base .int).2.pointer 1
  let (inner, repository) := repository.function [self, 3, 0]
  let (_, repository) := repository.function [inner, 4]
  (repository.fresh (some 7)).2

/-- The outer function represents the inner one, which comes first, and the pointer
represents the unknown type. -/
theorem canonicalize_is_fixpoint_entangled :
    entangled.Built ∧ entangled.PartsExist ∧ AreFixed #[0, 1, 3, 3, 1] ∧
      ∃ canonical, entangled.canonicalize #[0, 1, 3, 3, 1] = .ok canonical ∧
        IsCanonical entangled #[0, 1, 3, 3, 1] canonical ∧
        canonical.canonicalize #[0, 1, 3, 3, 1] = .ok canonical ∧
        entangled.subtypes 2 = .ok [1, 3, 0] ∧ canonical.subtypes 2 = .ok [3, 1] := by
  have built : entangled.Built :=
    (((((Built.empty.base .int).pointer 1).function _).function _).fresh _)
  have parts : entangled.PartsExist := by
    rw [PartsExist]
    decide
  have fixed : AreFixed #[0, 1, 3, 3, 1] := by
    rw [AreFixed]
    decide
  obtain ⟨-, canonical, made, isCanonical, again⟩ :=
    canonicalize_is_fixpoint built parts (by decide) (by decide) fixed
  refine ⟨built, parts, fixed, canonical, made, isCanonical, again, rfl, ?_⟩
  obtain ⟨before, after, beforeRead, afterRead, same⟩ :=
    isCanonical.subtypes 2 3 (by decide) rfl
  have outer : entangled.subtypes 3 = .ok [2, 4] := rfl
  obtain rfl : before = [2, 4] := Except.ok.inj (beforeRead.symm.trans outer)
  obtain rfl : [3, 1] = after := List.map_injective_iff.mpr (fun _ _ => Option.some.inj) same
  exact afterRead

end Repository
end Frontend
