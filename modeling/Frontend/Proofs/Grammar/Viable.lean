import Frontend.Proofs.Grammar.Legible
import Frontend.Proofs.Grammar.Parallel
import Frontend.Proofs.Grammar.Safety
import Frontend.Proofs.Grammar.Unfinished

/-!
# The first impossible token

A program is rejected at the first token with which no program goes on. What stands before
it can be finished to a program, and what stands behind it was not looked at.

A reading depends on the tokens that it has seen, and on the size of its stream only by the
depth at which it is given up. So streams are compared that start alike. Where the sizes do
not fit, one of the streams is made longer: nothing behind the end of the file is read.
-/

namespace Frontend

/-! ## Streams that start alike -/

/-- Streams of one source that have the same tokens at the first places. -/
structure Stream.SharesStart (stream other : Stream) (count : Nat) : Prop where
  source : other.source = stream.source
  tokens : ∀ place, place < count -> other.tokens[place]? = stream.tokens[place]?

theorem Stream.SharesStart.trans
    {stream other last : Stream}
    {count more : Nat}
    (shares : stream.SharesStart other count)
    (later : other.SharesStart last more)
    (le : count ≤ more) :
    stream.SharesStart last count where
  source := later.source.trans shares.source
  tokens place inside :=
    (later.tokens place (Nat.lt_of_lt_of_le inside le)).trans (shares.tokens place inside)

theorem Stream.SharesStart.symm
    {stream other : Stream}
    {count : Nat}
    (shares : stream.SharesStart other count) :
    other.SharesStart stream count where
  source := shares.source.symm
  tokens place inside := (shares.tokens place inside).symm

theorem Stream.SharesStart.carries
    {stream other : Stream}
    {count : Nat}
    (shares : stream.SharesStart other count) :
    stream.Carries other 0 count where
  kindAt?_eq := by
    intro place inside
    rw [Nat.zero_add, kindAt?, kindAt?, shares.tokens place inside]

theorem Diagnostic.Alike.eq
    {diagnostic twin : Diagnostic}
    (alike : diagnostic.Alike Eq twin) :
    diagnostic = twin := by
  obtain ⟨cause, location⟩ := diagnostic
  obtain ⟨twinCause, twinLocation⟩ := twin
  obtain ⟨alike, rfl⟩ := alike
  cases alike with
  | unexpected quotes => rw [quotes]
  | misplaced quotes => rw [quotes]
  | badNumeral quotes => rw [quotes]

namespace Comparison

/-- Streams are compared that have the same tokens at the first places. -/
def starting (count : Nat) (Ignores : Fault -> Nat -> Prop) : Comparison where
  Inside := (· < count)
  Quotes := Eq
  Ignores := Ignores
  downward := Nat.lt_of_le_of_lt

/-- Streams are compared that differ in where their tokens stand, if those before a limit
cannot be located. -/
def relocating (limit : Nat) : Comparison where
  Inside _ := True
  Quotes := Eq
  Ignores fault place := fault ≠ .endless ∧ place < limit
  downward _ _ := trivial

theorem Same.eq_or_ignored
    {comparison : Comparison}
    {α : Type}
    {result twin : EStateM.Result (Stop Diagnostic) Progress α}
    (quotesEq : comparison.Quotes = Eq)
    (same : comparison.Same Eq result twin) :
    twin = result ∨ ∃ fault after, result = .error (.fault fault) after ∧
      comparison.Ignores fault after.position := by
  cases same with
  | ok pairs after => exact .inl (by rw [pairs])
  | error alike after =>
      rw [quotesEq] at alike
      cases alike with
      | failed alike => exact .inl (by rw [alike.eq])
      | fault fault => exact .inl rfl
  | fault ignored => exact .inr ⟨_, _, rfl, ignored⟩

end Comparison

namespace Source

/-- A token that cannot be located is moved to the start of the text. -/
def relocate (source : Source) (token : Token) : Token :=
  if (source.place token.span.start).column < wordSize then
    token
  else
    { token with span := ⟨0, 0⟩ }

variable (source : Source) (token : Token)

theorem alike_relocate : token.Alike Eq (source.relocate token) := by
  unfold relocate
  split <;> exact ⟨rfl, rfl, rfl⟩

theorem column_relocate :
    (source.place (source.relocate token).span.start).column < wordSize := by
  unfold relocate
  split
  next fits => exact fits
  next => exact Nat.lt_of_le_of_lt (source.column_place_le 0) (by decide)

theorem locate_eq_error
    {offset : Nat}
    (large : ¬ (source.place offset).column < wordSize) :
    source.locate offset = .error (.column offset) := by
  simp [locate, large]

theorem locate_relocate
    (fits : (source.place token.span.start).column < wordSize) :
    source.locate (source.relocate token).span.start = source.locate token.span.start := by
  rw [relocate, if_pos fits]

end Source

namespace Stream

open Frontend.Parser

variable {stream other : Stream}

/-- A reading that stays at the first places is the same in both streams, unless it ends with
a fault that is ignored. -/
theorem SharesStart.program_eq
    {count : Nat}
    {Ignores : Fault -> Nat -> Prop}
    (shares : stream.SharesStart other count)
    (nonempty : 0 < stream.tokens.size)
    (inside : count ≤ stream.tokens.size)
    (covers : (Comparison.starting count Ignores).Covers stream.tokens.size other.tokens.size)
    (stays : (reached (program .standard stream {})).position < count) :
    program .standard other {} = program .standard stream {} ∨
      ∃ fault after, program .standard stream {} = .error (.fault fault) after ∧
        Ignores fault after.position := by
  have fits : (Comparison.starting count Ignores).Fits stream other := by
    refine ⟨nonempty, covers, fun token _ => ⟨token, rfl, rfl, rfl⟩, ?_⟩
    intro place (early : place < count)
    have present := Array.getElem?_eq_getElem (Nat.lt_of_lt_of_le early inside)
    have presentLater := (shares.tokens place early).trans present
    have otherInside := (Array.getElem?_eq_some_iff.mp presentLater).1
    have ahead : stream.ahead place = place := Nat.min_eq_left (by omega)
    have otherAhead : other.ahead place = place := Nat.min_eq_left (by omega)
    rw [ahead, otherAhead]
    exact ⟨rfl, _, _, present, presentLater, ⟨rfl, rfl, rfl⟩, .inl (by rw [shares.source])⟩
  exact ((fits.mirrors_program .standard {}).same stays).eq_or_ignored rfl

/-- A token that is added to a stream. -/
def added (kind : Token.Kind) : Token :=
  ⟨kind, "", ⟨0, 0⟩⟩

/-- The stream with the end of its file repeated. -/
def padded (stream : Stream) (count : Nat) : Stream where
  source := stream.source
  tokens := stream.tokens ++ Array.replicate count (added .endOfFile)

theorem sharesStart_padded (stream : Stream) (count : Nat) :
    stream.SharesStart (stream.padded count) stream.tokens.size where
  source := rfl
  tokens _ inside := Array.getElem?_append_left inside

theorem size_padded (stream : Stream) (count : Nat) :
    (stream.padded count).tokens.size = stream.tokens.size + count := by
  simp [padded]

/-- A stream that is made longer covers another one, where it is ignored that a reading is
given up. -/
theorem covers_padded
    {count : Nat}
    {Ignores : Fault -> Nat -> Prop}
    (ignores : ∀ place, Ignores .endless place)
    (stream : Stream)
    (bound : Nat) :
    (Comparison.starting count Ignores).Covers bound (stream.padded bound).tokens.size := by
  refine .inr ⟨?_, ignores⟩
  rw [size_padded]
  exact Nat.le_add_left _ _

/-- The stream is read without a fault. -/
def IsFaultless (stream : Stream) : Prop :=
  ∀ fault after, program .standard stream {} ≠ .error (.fault fault) after

theorem Blames.lt_size
    {place : Nat}
    {diagnostic : Diagnostic}
    (blames : stream.Blames place diagnostic) :
    place < stream.tokens.size := by
  obtain ⟨token, present, -⟩ := blames
  exact (Array.getElem?_eq_some_iff.mp present).1

/-- A reading without a fault stays at the tokens of its stream. -/
theorem reached_lt_size
    (ends : stream.Ends)
    (faultless : stream.IsFaultless) :
    (reached (program .standard stream {})).position < stream.tokens.size := by
  cases read : program .standard stream {} with
  | ok _ after =>
      obtain ⟨ids, middle, statementsRead, -, rfl⟩ := (program_eq_ok ends).mp read
      have ready : Ready stream rooted := ends.nonempty
      obtain ⟨-, -, -, -, ended⟩ :=
        areStatements_of_programStatements ends ready statementsRead
      exact lt_size_of_kindAt? ended
  | error stop after =>
      cases stop with
      | failed diagnostic => exact (fails_program ends diagnostic after read).blames.lt_size
      | fault fault => exact absurd read (faultless fault after)

/-- What stands behind the end of the file makes no difference. -/
theorem program_padded
    (ends : stream.Ends)
    (faultless : stream.IsFaultless)
    (count : Nat) :
    program .standard (stream.padded count) {} = program .standard stream {} := by
  have longer : stream.tokens.size ≤ (stream.padded count).tokens.size := by
    rw [size_padded]
    exact Nat.le_add_right _ count
  have covers : (Comparison.starting stream.tokens.size fun _ _ => True).Covers
      stream.tokens.size (stream.padded count).tokens.size :=
    .inr ⟨longer, fun _ => trivial⟩
  rcases (stream.sharesStart_padded count).program_eq ends.nonempty (Nat.le_refl _) covers
    (reached_lt_size ends faultless) with same | ⟨fault, after, faults, -⟩
  · exact same
  · exact absurd faults (faultless fault after)

theorem exists_program_eq
    {diagnostic : Diagnostic}
    (rejected : stream.tree = .error (.failed diagnostic)) :
    ∃ after, program .standard stream {} = .error (.failed diagnostic) after := by
  unfold Stream.tree at rejected
  split at rejected
  · cases rejected
  next after read =>
    cases rejected
    exact ⟨after, read⟩

theorem exists_tree_of_program_eq
    {tree : Tree}
    (same : program .standard other {} = program .standard stream {})
    (made : other.tree = .ok tree) :
    ∃ tree, stream.tree = .ok tree := by
  unfold Stream.tree at made ⊢
  rw [same] at made
  split at made
  next => exact ⟨_, rfl⟩
  next => cases made

theorem isFaultless_of_failed
    {diagnostic : Diagnostic}
    {after : Progress}
    (failed : program .standard stream {} = .error (.failed diagnostic) after) :
    stream.IsFaultless := by
  intro fault last read
  rw [failed] at read
  cases read

theorem HasLocations.isFaultless
    (located : stream.HasLocations)
    (ends : stream.Ends) :
    stream.IsFaultless := by
  intro fault after read
  have faults : stream.tree = .error (.fault fault) := by rw [Stream.tree, read]
  rcases exists_tree_or_diagnostic ends located with ⟨tree, made⟩ | ⟨diagnostic, made, -⟩
  · rw [faults] at made
    cases made
  · rw [faults] at made
    cases made

/-- A stream that goes on differently behind the token at which another one was rejected is
rejected in the same way. -/
theorem SharesStart.rejected
    {diagnostic : Diagnostic}
    {after : Progress}
    (ends : stream.Ends)
    (failed : program .standard stream {} = .error (.failed diagnostic) after)
    (otherEnds : other.Ends)
    (located : other.HasLocations)
    (shares : stream.SharesStart other (after.position + 1)) :
    other.tree = .error (.failed diagnostic) := by
  have blamed := (fails_program ends diagnostic after failed).blames.lt_size
  have otherInside : after.position + 1 ≤ other.tokens.size := by
    have present := (shares.tokens after.position (Nat.lt_succ_self _)).trans
      (Array.getElem?_eq_getElem blamed)
    exact (Array.getElem?_eq_some_iff.mp present).1
  -- Only a longer stream can be compared with both: its readings are given up later.
  have same := program_padded otherEnds (located.isFaultless otherEnds) stream.tokens.size
  have further := shares.trans (other.sharesStart_padded stream.tokens.size) otherInside
  have covers : (Comparison.starting (after.position + 1) fun _ _ => True).Covers
      stream.tokens.size (other.padded stream.tokens.size).tokens.size :=
    covers_padded (fun _ => trivial) other _
  have stays : (reached (program .standard stream {})).position < after.position + 1 := by
    rw [failed]
    exact Nat.lt_succ_self _
  rcases further.program_eq ends.nonempty blamed covers stays with alike | ⟨_, _, faults, -⟩
  · have otherFailed := same.symm.trans (alike.trans failed)
    rw [Stream.tree, otherFailed]
  · rw [failed] at faults
    cases faults

/-! ## Finishing a program -/

/-- The tokens before a place, then tokens of these kinds and the end of the file. -/
def completed (stream : Stream) (place : Nat) (kinds : List Token.Kind) : Stream where
  source := stream.source
  tokens := (stream.tokens.toList.take place ++
    (kinds ++ [Token.Kind.endOfFile]).map added).toArray

section Completed

variable
  {place : Nat}
  {kinds : List Token.Kind}
  (inside : place < stream.tokens.size)

include inside

theorem length_take : (stream.tokens.toList.take place).length = place := by
  rw [List.length_take, Array.length_toList, Nat.min_eq_left (Nat.le_of_lt inside)]

theorem sharesStart_completed : stream.SharesStart (stream.completed place kinds) place where
  source := rfl
  tokens early before := by
    rw [completed, List.getElem?_toArray,
      List.getElem?_append_left (by rwa [length_take inside]), List.getElem?_take_of_lt before,
      Array.getElem?_toList]

theorem getElem?_completed (late : Nat) :
    (stream.completed place kinds).tokens[place + late]? =
      ((kinds ++ [Token.Kind.endOfFile])[late]?).map added := by
  rw [completed, List.getElem?_toArray,
    List.getElem?_append_right (by rw [length_take inside]; exact Nat.le_add_right _ _),
    length_take inside, Nat.add_sub_cancel_left, List.getElem?_map]

theorem size_completed :
    (stream.completed place kinds).tokens.size = place + (kinds.length + 1) := by
  rw [completed, List.size_toArray, List.length_append, length_take inside, List.length_map,
    List.length_append, List.length_singleton]

/-- Only the last token that was added ends the file. -/
theorem endsOnce_completed
    (once : stream.EndsOnce)
    (plain : kinds.all Token.Kind.isPlain = true) :
    (stream.completed place kinds).EndsOnce where
  nonempty := by
    rw [size_completed inside]
    exact Nat.succ_pos _
  kindAt?_iff := by
    intro found
    rw [size_completed inside]
    rcases Nat.lt_or_ge found place with before | behind
    · have early : (stream.completed place kinds).kindAt? found = stream.kindAt? found := by
        rw [kindAt?, (sharesStart_completed inside).tokens found before, kindAt?]
      rw [early, once.kindAt?_iff]
      omega
    · obtain ⟨late, rfl⟩ := Nat.exists_eq_add_of_le behind
      rw [kindAt?, getElem?_completed inside]
      rcases Nat.lt_trichotomy late kinds.length with short | rfl | far
      · have isPlain := List.all_eq_true.mp plain _ (List.getElem_mem short)
        rw [List.getElem?_append_left short, List.getElem?_eq_getElem short]
        constructor
        · intro isEnd
          simp only [Option.map_some, added, Option.some.injEq] at isEnd
          rw [isEnd] at isPlain
          cases isPlain
        · omega
      · simp [added]
        omega
      · rw [List.getElem?_eq_none (by simp; omega)]
        simp
        omega

theorem hasValues_completed
    (valued : stream.IsValued 0 place)
    (plain : kinds.all Token.Kind.isPlain = true) :
    (stream.completed place kinds).HasValues := by
  intro token member
  obtain ⟨found, present⟩ := Array.getElem?_of_mem member
  rcases Nat.lt_or_ge found place with before | behind
  · rw [(sharesStart_completed inside).tokens found before] at present
    exact valued found token (Nat.zero_le _) before present
  · obtain ⟨late, rfl⟩ := Nat.exists_eq_add_of_le behind
    rw [getElem?_completed inside] at present
    obtain ⟨kind, isKind, rfl⟩ := Option.map_eq_some_iff.mp present
    rcases List.mem_append.mp (List.mem_of_getElem? isKind) with isMore | isEnd
    · have isPlain := List.all_eq_true.mp plain _ isMore
      cases kind <;> first | rfl | cases isPlain
    · rw [List.mem_singleton.mp isEnd]
      rfl

/-- The tokens that were added can be located. -/
theorem column_completed
    {found : Nat}
    {token : Token}
    (behind : place ≤ found)
    (present : (stream.completed place kinds).tokens[found]? = some token) :
    (stream.source.place token.span.start).column < Source.wordSize := by
  obtain ⟨late, rfl⟩ := Nat.exists_eq_add_of_le behind
  rw [getElem?_completed inside] at present
  obtain ⟨kind, -, rfl⟩ := Option.map_eq_some_iff.mp present
  exact Nat.lt_of_le_of_lt (stream.source.column_place_le 0) (by decide)

end Completed

/-! ## Locations -/

/-- The stream with all tokens where they can be located. -/
def relocated (stream : Stream) : Stream where
  source := stream.source
  tokens := stream.tokens.map stream.source.relocate

theorem getElem?_relocated (stream : Stream) (place : Nat) :
    stream.relocated.tokens[place]? = (stream.tokens[place]?).map stream.source.relocate :=
  Array.getElem?_map

theorem kindAt?_relocated (stream : Stream) (place : Nat) :
    stream.relocated.kindAt? place = stream.kindAt? place := by
  rw [kindAt?, getElem?_relocated, kindAt?, Option.map_map]
  congr 1
  funext token
  exact (stream.source.alike_relocate token).kind.symm

theorem hasLocations_relocated (stream : Stream) : stream.relocated.HasLocations := by
  intro token member
  obtain ⟨unmoved, -, rfl⟩ := Array.mem_map.mp member
  exact stream.source.column_relocate unmoved

theorem HasValues.relocated (valued : stream.HasValues) : stream.relocated.HasValues := by
  intro token member
  obtain ⟨unmoved, isToken, rfl⟩ := Array.mem_map.mp member
  rw [← (stream.source.alike_relocate unmoved).hasValue]
  exact valued unmoved isToken

theorem Ends.relocated (ends : stream.Ends) : stream.relocated.Ends where
  nonempty := by simpa [Stream.relocated] using ends.nonempty
  last := by
    rw [kindAt?_relocated, Stream.relocated, Array.size_map]
    exact ends.last

/-- If only tokens before a limit cannot be located, then a reading is the same with all of
them located, unless it faults before the limit. -/
theorem program_relocated
    {limit : Nat}
    (inside : limit < stream.tokens.size)
    (fits : ∀ place token, limit ≤ place -> stream.tokens[place]? = some token ->
      (stream.source.place token.span.start).column < Source.wordSize) :
    program .standard stream.relocated {} = program .standard stream {} ∨
      ∃ fault after, program .standard stream {} = .error (.fault fault) after ∧
        fault ≠ .endless ∧ after.position < limit := by
  have nonempty : 0 < stream.tokens.size := Nat.lt_of_le_of_lt (Nat.zero_le _) inside
  have size : stream.relocated.tokens.size = stream.tokens.size := Array.size_map
  have compared : (Comparison.relocating limit).Fits stream stream.relocated := by
    refine ⟨nonempty, .inl size.symm, fun token _ => ⟨token, rfl, rfl, rfl⟩, ?_⟩
    intro place _
    obtain ⟨token, present⟩ : ∃ token, stream.tokens[stream.ahead place]? = some token :=
      ⟨_, Array.getElem?_eq_getElem (stream.ahead_lt nonempty place)⟩
    have presentLater := stream.getElem?_relocated (stream.ahead place)
    rw [present] at presentLater
    refine ⟨by rw [ahead, ahead, size], _, _, present, presentLater,
      stream.source.alike_relocate token, ?_⟩
    by_cases located : (stream.source.place token.span.start).column < Source.wordSize
    · exact .inl (stream.source.locate_relocate token located).symm
    · have early : place < limit := by
        by_contra late
        have behind : limit ≤ stream.ahead place :=
          Nat.le_min.mpr ⟨Nat.le_of_not_lt late, Nat.le_sub_one_of_lt inside⟩
        exact located (fits _ _ behind present)
      exact .inr ⟨_, stream.source.locate_eq_error located, by simp, early⟩
  exact ((compared.mirrors_program .standard {}).same trivial).eq_or_ignored rfl

/-! ## Rejected programs -/

theorem shows_of_getElem?
    {place : Nat}
    {kinds : List Token.Kind}
    (present : ∀ late kind, kinds[late]? = some kind ->
      stream.kindAt? (place + late) = some kind) :
    stream.Shows place kinds := by
  induction kinds generalizing place with
  | nil => trivial
  | cons kind kinds ih =>
      refine ⟨present 0 kind rfl, ih fun late found isFound => ?_⟩
      rw [Nat.add_assoc, Nat.add_comm 1]
      exact present (late + 1) found isFound

/-- Where reading is stuck among the statements of a program, the program can be finished. -/
theorem exists_derives
    {place : Nat}
    {diagnostic : Diagnostic}
    (isStuck : IsStuckAmong stream false 0 diagnostic place) :
    ∃ kinds, kinds.all Token.Kind.isPlain = true ∧
      ∃ program, (stream.completed place kinds).relocated.Derives program := by
  have inside := isStuck.blames.lt_size
  obtain ⟨kinds, plain, finish⟩ := isStuck.finish
  have carries : stream.Carries (stream.completed place kinds).relocated 0 place := by
    refine ⟨fun before => ?_⟩
    rw [kindAt?_relocated]
    exact (sharesStart_completed inside).carries.kindAt?_eq before
  have shows : (stream.completed place kinds).relocated.Shows place
      (kinds ++ [Token.Kind.endOfFile]) := by
    refine shows_of_getElem? fun late kind isKind => ?_
    rw [kindAt?_relocated, kindAt?, getElem?_completed inside, isKind]
    rfl
  rw [shows_append] at shows
  obtain ⟨shown, isEnd, -⟩ := shows
  obtain ⟨-, statements, derived⟩ := finish _ carries shown (.inr isEnd)
  exact ⟨kinds, plain, ⟨0, statements⟩, rfl, _, derived, isEnd⟩

/-- A stream that starts like a rejected one meets no fault before the token at which that
one was rejected, but for being given up. -/
theorem SharesStart.eq_endless
    {diagnostic : Diagnostic}
    {after last : Progress}
    {fault : Fault}
    (ends : stream.Ends)
    (failed : program .standard stream {} = .error (.failed diagnostic) after)
    (shares : stream.SharesStart other after.position)
    (inside : after.position ≤ other.tokens.size)
    (faults : program .standard other {} = .error (.fault fault) last)
    (early : last.position < after.position) :
    fault = .endless := by
  have blamed := (fails_program ends diagnostic after failed).blames.lt_size
  have same := program_padded ends (isFaultless_of_failed failed) other.tokens.size
  have further := shares.symm.trans (stream.sharesStart_padded other.tokens.size)
    (Nat.le_of_lt blamed)
  have covers : (Comparison.starting after.position fun fault _ => fault = .endless).Covers
      other.tokens.size (stream.padded other.tokens.size).tokens.size :=
    covers_padded (fun _ => rfl) stream _
  have stays : (reached (program .standard other {})).position < after.position := by
    rw [faults]
    exact early
  have nonempty : 0 < other.tokens.size := by omega
  rcases further.program_eq nonempty inside covers stays with alike | ⟨_, _, found, isEndless⟩
  · rw [same, failed, faults] at alike
    cases alike
  · rw [faults] at found
    cases found
    exact isEndless

/-- What stands before the token at which a stream was rejected is the start of a program. -/
theorem exists_accepted
    {diagnostic : Diagnostic}
    {after : Progress}
    (once : stream.EndsOnce)
    (failed : program .standard stream {} = .error (.failed diagnostic) after) :
    ∃ accepted tree,
      stream.SharesStart accepted after.position ∧ accepted.EndsOnce ∧
        accepted.tree = .ok tree := by
  have isStuck := fails_program once.ends diagnostic after failed
  have inside := isStuck.blames.lt_size
  obtain ⟨kinds, plain, program, derived⟩ := exists_derives isStuck
  have shares : stream.SharesStart (stream.completed after.position kinds) after.position :=
    sharesStart_completed inside
  have completedOnce := endsOnce_completed inside once plain
  have size : after.position < (stream.completed after.position kinds).tokens.size := by
    rw [size_completed inside]
    omega
  obtain ⟨tree, -, made, -, -⟩ := derived.exists_tree_eq completedOnce.ends.relocated
    (hasValues_completed inside isStuck.valued plain).relocated (hasLocations_relocated _)
  -- A token before the place may have no location. Then it was not asked for, as the rejected
  -- stream would have met the same fault.
  rcases program_relocated size fun _ _ => column_completed inside with
    same | ⟨fault, last, faults, goesOn, early⟩
  · obtain ⟨acceptedTree, accepted⟩ := exists_tree_of_program_eq same made
    exact ⟨_, acceptedTree, shares, completedOnce, accepted⟩
  · exact absurd (shares.eq_endless once.ends failed (Nat.le_of_lt size) faults early) goesOn

/-- A program is rejected at the first token with which no program goes on. The diagnostic
is about this token. What stands before it is the start of a program that is accepted, and
whatever stands behind it, the program is rejected with the same diagnostic. -/
theorem rejected_at_first_impossible_token
    (stream : Stream)
    (once : stream.EndsOnce)
    (diagnostic : Diagnostic)
    (rejected : stream.tree = .error (.failed diagnostic)) :
    ∃ place,
      stream.Blames place diagnostic ∧
        (∃ accepted tree,
          stream.SharesStart accepted place ∧ accepted.EndsOnce ∧ accepted.tree = .ok tree) ∧
        ∀ other, other.Ends -> stream.SharesStart other (place + 1) ->
          (∀ token ∈ other.tokens, token.span.start + 1 < Source.wordSize) ->
            other.tree = .error (.failed diagnostic) := by
  obtain ⟨after, failed⟩ := exists_program_eq rejected
  refine ⟨after.position, (fails_program once.ends diagnostic after failed).blames,
    exists_accepted once failed, fun other otherEnds shares starts => ?_⟩
  have located : other.HasLocations := fun token member =>
    Nat.lt_of_le_of_lt (other.source.column_place_le _) (starts token member)
  exact shares.rejected once.ends failed otherEnds located

/-- The tokens of `x + )`, and what stands behind them. -/
def dangling (rest : List Token.Kind) : Stream :=
  ofKinds ([Token.Kind.identifier, .plus, .closeParen] ++ rest)

/-- The parenthesis is rejected, whether the file ends behind it or goes on. -/
theorem rejected_at_first_impossible_token_dangling :
    (dangling [.endOfFile]).EndsOnce ∧
      ∃ diagnostic,
        (dangling [.endOfFile]).tree = .error (.failed diagnostic) ∧
          (dangling [.endOfFile]).Blames 2 diagnostic ∧
          (∃ accepted tree,
            (dangling [.endOfFile]).SharesStart accepted 2 ∧ accepted.EndsOnce ∧
              accepted.tree = .ok tree) ∧
          (dangling [.star, .endOfFile, .int, .endOfFile]).tree =
            .error (.failed diagnostic) := by
  have once : (dangling [.endOfFile]).EndsOnce := by decide
  have rejected : (dangling [.endOfFile]).tree = .error
      (.failed ⟨.unexpected Token.Kind.closeParen.name, ⟨1, 3, "shell"⟩⟩) := by rfl
  obtain ⟨place, blames, accepted, rejects⟩ :=
    rejected_at_first_impossible_token (dangling [.endOfFile]) once _ rejected
  obtain rfl : place = 2 := by
    have only : ∀ place < 4, ((dangling [.endOfFile]).tokens[place]?).map Token.value =
        some Token.Kind.closeParen.name -> place = 2 := by decide
    have inside : place < 4 := blames.lt_size
    obtain ⟨token, present, quoted, -⟩ := blames
    exact only place inside (by rw [present]; exact quoted.symm)
  refine ⟨once, _, rejected, blames, accepted, ?_⟩
  exact rejects _ (by decide) ⟨rfl, by decide⟩ (by decide)

end Stream

end Frontend
