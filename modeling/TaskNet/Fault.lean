import TaskNet.Tree.Kind

/-!
Faults: operations that were asked for what they cannot do. They are errors of the caller and not of
the planning domain at hand, which has diagnostics. Some faults explain themselves and some only say
that something was not there.
-/

namespace TaskNet

/-- What an operation could not do. -/
inductive Fault where
  | appendOfNothing
  | appendOfAttached
  | insertOfNothing
  | insertAfterTop
  | insertOfAttached
  | detachOfTop
  /-- The ends of a list of children are not what they were left as. -/
  | brokenAppend
  | brokenInsert
  | brokenDetach
  | namedOnUnnamed (kind : Kind)
  | noDisjunction
  | releaseToFuture
  /-- A node that is not there was asked for. -/
  | missingNode
  /-- A node was read as if it carried something else. -/
  | otherContent
  /-- An index or a size lies outside its range. -/
  | outOfRange
  /-- A text would be longer than any text can be. -/
  | textTooLong
  deriving DecidableEq, Repr

/-- The text of a fault that explains itself. -/
def Fault.message? : Fault → Option String
  | .appendOfNothing => some "ast: append of nil node"
  | .appendOfAttached => some "ast: append of attached node"
  | .insertOfNothing => some "ast: insert of nil node"
  | .insertAfterTop => some "ast: insert after a root"
  | .insertOfAttached => some "ast: insert of attached node"
  | .detachOfTop => some "ast: unparent of a root"
  | .brokenAppend => some "ast: broken child list after append"
  | .brokenInsert => some "ast: broken child list after insert"
  | .brokenDetach => some "ast: broken child list after unparent"
  | .namedOnUnnamed k => some ("ast: NewNamed on unnamed kind " ++ k.label)
  | .noDisjunction => some "normalize: complex clause without a disjunction"
  | .releaseToFuture => some "arena: release to a mark in the future"
  | .missingNode | .otherContent | .outOfRange | .textTooLong => none

end TaskNet
