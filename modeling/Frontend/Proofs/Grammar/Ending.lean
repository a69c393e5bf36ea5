import Frontend.Proofs.Grammar.Safety

/-!
# Reading a stream moves on and ends

Whatever tokens a stream has, reading it comes to an end if the last one ends the file.
Each phrase that is read takes at least one token, and nothing behind the first token that
ends the file is ever read.
-/

namespace Frontend
namespace Parser

/-- A parser that succeeds has moved on. Whether it succeeds or not, it has not moved back
and stands at the token at `stop` or before it. -/
def MovesOn
    {α : Type}
    (stop : Nat)
    (before : Progress) :
    EStateM.Result (Stop Diagnostic) Progress α -> Prop
  | .ok _ after => before.position < after.position ∧ after.position ≤ stop
  | .error _ after => before.position ≤ after.position ∧ after.position ≤ stop

/-- A parser ends, with a result or for a reason that the stream accounts for. -/
def Settles
    {α : Type}
    (stream : Stream) :
    EStateM.Result (Stop Diagnostic) Progress α -> Prop
  | .ok _ _ => True
  | .error reason _ => stream.AccountsFor reason

/-- Calls for phrases move on, however deep they may be nested. -/
theorem movesOn_phraseWithin
    {stream : Stream}
    {stop : Nat}
    (ends : stream.EndsFirstAt stop)
    (request : Phrase)
    {before : Progress}
    (inside : before.position ≤ stop)
    (timely : IsTimely stop request before)
    (depth : Nat) :
    MovesOn stop before (phraseWithin .standard stream depth request before) := by
  have yields : Yields stop (fun _ => True) (phraseWithin .standard stream depth request)
      before _ :=
    safeFrom_phraseWithin ends.present (fun _ _ => trivial) depth request 0 (.inr trivial)
      before (Nat.zero_le _) inside
  unfold Yields at yields
  match phraseWithin .standard stream depth request before, yields with
  | .ok id after, ⟨moves, further⟩ =>
      exact ⟨further fun isReturn => ends.first _ (timely isReturn), moves.inside⟩
  | .error reason after, ⟨moves, _⟩ => exact ⟨moves.forward, moves.inside⟩

/-- Reading a phrase ends, also behind an end of the file that is not the last one. -/
theorem settles_phrase
    {stream : Stream}
    (ends : stream.Ends)
    (request : Phrase)
    {before : Progress}
    (ready : Ready stream before) :
    Settles stream (phrase .standard stream request before) := by
  have yields := safeFrom_phrase ends.last (fun _ accounted => accounted) request before
    (Nat.zero_le _) (Nat.le_sub_one_of_lt ready)
  unfold Yields at yields
  match phrase .standard stream request before, yields with
  | .ok id after, _ => exact trivial
  | .error reason after, ⟨_, accounted⟩ => exact accounted

end Parser

namespace Stream

/-- Reading a stream that ends gives a tree or a diagnostic, or breaks off at a token whose
column does not fit into a word. Every phrase that is read takes a token, and nothing
behind the first end of the file is read. -/
theorem reading_moves_on_and_ends {stream : Stream} (ends : stream.Ends) :
    ((∃ tree, stream.tree = .ok tree) ∨
        ∃ reason, stream.tree = .error reason ∧ stream.AccountsFor reason) ∧
      (stream.HasLocations ->
        (∃ tree, stream.tree = .ok tree) ∨
          ∃ diagnostic, stream.tree = .error (.failed diagnostic)) ∧
      ∃ stop, stream.EndsFirstAt stop ∧
        (∀ result after, Parser.program .standard stream {} = .ok result after ->
          after.position = stop) ∧
        (∀ reason after, Parser.program .standard stream {} = .error reason after ->
          after.position ≤ stop) ∧
        ∀ request before, before.position ≤ stop -> Parser.IsTimely stop request before ->
          Parser.Settles stream (Parser.phrase .standard stream request before) ∧
            ∀ depth, Parser.MovesOn stop before
              (Parser.phraseWithin .standard stream depth request before) := by
  obtain ⟨stop, endsFirst⟩ := ends.exists_endsFirstAt
  have yields := Parser.yields_program (fun _ accounted => accounted) endsFirst ends
  unfold Parser.Yields at yields
  refine ⟨ends.exists_tree_or_stop, fun located => ?_, stop, endsFirst, ?_, ?_, ?_⟩
  · rcases exists_tree_or_diagnostic ends located with made | ⟨diagnostic, failed, -⟩
    · exact .inl made
    · exact .inr ⟨diagnostic, failed⟩
  · intro result after read
    rw [read] at yields
    exact yields.2
  · intro reason after stopped
    rw [stopped] at yields
    exact yields.1.inside
  · intro request before inside timely
    exact ⟨Parser.settles_phrase ends request (Parser.ready_of_le endsFirst.present inside),
      Parser.movesOn_phraseWithin endsFirst request inside timely⟩

/-- The tokens of `fn f(`, an end of the file, and a call behind it. -/
def interrupted : Stream :=
  ofKinds [.fnWord, .identifier, .openParen, .endOfFile, .identifier, .openParen, .endOfFile]

theorem reading_moves_on_and_ends_interrupted :
    interrupted.Ends ∧ interrupted.HasLocations ∧
      ((∃ tree, interrupted.tree = .ok tree) ∨
        ∃ diagnostic, interrupted.tree = .error (.failed diagnostic)) ∧
      Parser.MovesOn 3 {} (Parser.phrase .standard interrupted (.construct .function) {}) := by
  have ends : interrupted.Ends := ⟨by decide, by decide⟩
  have located : interrupted.HasLocations := by decide
  obtain ⟨-, settled, stop, endsFirst, -, -, phrases⟩ := reading_moves_on_and_ends ends
  have third : stop = 3 := by
    have present : interrupted.kindAt? 3 = some .endOfFile := by decide
    have earlier : ∀ place < 3, interrupted.kindAt? place ≠ some .endOfFile := by decide
    rcases Nat.lt_trichotomy stop 3 with before | same | behind
    · exact absurd endsFirst.present (earlier stop before)
    · exact same
    · exact absurd present (endsFirst.first 3 behind)
  subst third
  exact ⟨ends, located, settled located,
    (phrases (.construct .function) {} (Nat.zero_le _) (Parser.isTimely_of_ne (by simp))).2 _⟩

/-- A stream may have neither a tree nor a diagnostic, although it ends: the column of the
name does not fit into a word. And a return that no table asks for, at the end of the file
inside of a function, is read without a token. -/
theorem distant_has_neither_tree_nor_diagnostic :
    (distant.Ends ∧ (¬ ∃ tree, distant.tree = .ok tree) ∧
      ¬ ∃ diagnostic, distant.tree = .error (.failed diagnostic)) ∧
      ∃ id after,
        Parser.phrase .standard (ofKinds [.endOfFile]) (.construct .return) { depth := 1 } =
            .ok id after ∧
          after.position = 0 := by
  have broken : distant.tree = .error (.fault (.column Node.absent)) := by rfl
  refine ⟨⟨⟨by decide, by decide⟩, ?_, ?_⟩, 0, _, rfl, rfl⟩
  · rintro ⟨tree, made⟩
    rw [broken] at made
    cases made
  · rintro ⟨diagnostic, failed⟩
    rw [broken] at failed
    cases failed

end Stream
end Frontend
