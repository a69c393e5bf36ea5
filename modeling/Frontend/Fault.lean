/-!
# Faults

Most wrong programs are answered by a diagnostic. A fault is something else: a
caller broke a promise, for instance by naming a node that the tree does not
have. A computation that meets one has no answer.

`Stop` joins the two ways in which a computation with a state can end early. A
failure belongs to the job and leaves the state in force; a fault ends the whole
run.
-/

namespace Frontend

/-- A broken promise of the caller, named by what was asked for in vain. -/
inductive Fault
  /-- A token stream has no token at all. -/
  | noTokens
  /-- There is no token of this index. -/
  | token (index : Nat)
  /-- There is no node of this index. -/
  | node (index : Nat)
  /-- The side array of a tree has no word of this index. -/
  | word (index : Nat)
  /-- A run of words ends before it starts. -/
  | reversedRun (start stop : Nat)
  /-- There is no declaration of this index. -/
  | declaration (index : Nat)
  /-- There is no type of this index. -/
  | type (index : Nat)
  /-- A list of representatives says nothing about this type. -/
  | representative (index : Nat)
  /-- A position lies outside the text, inside a character, or beyond all counting. -/
  | position (offset : Nat)
  /-- The column of this offset does not fit into 32 bits. -/
  | column (offset : Nat)
  /-- A scope is left although none is open. -/
  | scopeExit
  /-- A function body is left although none is open. -/
  | functionExit
  /-- An operand is taken although no operand is left. -/
  | noOperand
  /-- Operands are left over at the end. -/
  | leftoverOperands
  /-- Following the links of a structure never comes to an end. -/
  | endless
  deriving DecidableEq, Repr

/-- How a computation with a state ends without a result. -/
inductive Stop (Failure : Type)
  /-- The job itself failed; the state reached so far stays in force. -/
  | failed (failure : Failure)
  /-- A promise was broken. -/
  | fault (fault : Fault)
  deriving DecidableEq, Repr

end Frontend
