import Joinability.Text.Basic

/-!
# Faults

A fault is the cause for which an operation gives no answer. Its message is a function of the cause,
so laws speak of causes and only the outer layer prints.

Some messages quote texts, and a text may hold any byte. A message ends before its first zero byte,
wherever that stands: what would follow, the closing words included, is left out.

## Three kinds

An *invariant* fault says that ids, edges or parent chains do not fit together. A *request* fault
says that a setting, a rule or a proof was not acceptable in the first place. An *engine* fault is
raised by a rewriting engine or by one of its deferred proofs, and passes through the search
unchanged.

An exhausted search or a spent budget is no fault: both are answers.
-/

namespace Joinability

/-- What a fault is about. -/
inductive Fault.Kind where
  /-- Ids, edges or parent chains do not fit together. -/
  | invariant
  /-- A setting, a rule or a proof is not acceptable. -/
  | request
  /-- The engine or a deferred proof failed. -/
  | engine
deriving DecidableEq, Repr

/-- The cause for which an operation gives no answer. -/
inductive Fault where
  /-- A vertex was asked for that the table of this size has not issued. -/
  | vertexUnissued (id size : Nat)
  /-- A vertex was to be changed that the table of this size has not issued. -/
  | vertexUnissuedForUpdate (id size : Nat)
  /-- A key was to be registered for a vertex that the table has not issued. -/
  | keyForUnissued (id : Nat)
  /-- An edge was asked for that the table of this size has not issued. -/
  | edgeUnissued (id size : Nat)
  /-- The proof of an edge was asked for that the table has not issued. -/
  | proofOfUnissuedEdge (id : Nat)
  /-- A token was asked for that the table of this size has not issued. -/
  | tokenUnissued (id size : Nat)
  /-- An edge carries neither a proof nor a way to build one. -/
  | noProof
  /-- An exploration was given its roots a second time. -/
  | alreadyInitialised
  /-- The two roots of an exploration have the same canonical key. -/
  | sharedKey (key : Text)
  /-- The graph was asked for and no search with two different sides was started. -/
  | nothingExplored
  /-- A step was asked for before a search was started. -/
  | stepBeforeStart
  /-- A proof was asked for before a search was started. -/
  | proofBeforeStart
  /-- The sides agree from the start, so there is no edge to build a proof from. -/
  | noEdgeBetweenAgreed (edge : Nat)
  /-- Both ends of the edge are on one side. -/
  | edgeWithinSide (edge : Nat)
  /-- The parent chain ends at the root of the other tree or at a further root. -/
  | foreignRoot (vertex root : Nat)
  /-- A vertex that is no root has no parent edge. -/
  | noParentEdge (vertex : Nat)
  /-- The parent edge of a vertex does not touch it. -/
  | parentEdgeAstray (edge vertex : Nat)
  /-- The parent chain of a vertex never reaches a root. -/
  | parentCycle (vertex : Nat)
  /-- A path to be proved goes on with an edge that does not touch the vertex reached so far. -/
  | pathBroken (edge vertex : Nat)
  /-- Two equalities were chained of which the first ends elsewhere than the second begins. -/
  | chainMismatch (first second : Text)
  /-- The time limit is zero or negative. -/
  | timeoutNotPositive
  /-- The settings name no known strategy. -/
  | unknownStrategy
  /-- A best-first frontier was asked for without a way to score vertices. -/
  | noHeuristic
  /-- The text of a rule has no colon. -/
  | ruleWithoutColon (text : Text)
  /-- The text of a rule has no separator between its sides. -/
  | ruleWithoutEquals (text : Text)
  /-- The text of a rule has more than one separator between its sides. -/
  | ruleWithManyEquals (text : Text)
  /-- The text of a rule has an empty name or an empty side. -/
  | rulePartEmpty (text : Text)
  /-- A rule to be added has an empty side. -/
  | ruleSideEmpty (name : Text)
  /-- A term to which rules are applied, or which is proved equal to itself, carries no text. -/
  | payloadNotText (pretty : Text)
  /-- A proof to be combined is no proof of an equality of texts. -/
  | proofNotEquality
  /-- The engine failed with this message. -/
  | engineFailed (message : Text)
  /-- The deferred proof of a use of the named rule failed. -/
  | proofFailed (name : Text)
deriving DecidableEq, Repr

namespace Fault

/-- What a fault is about. -/
def kind : Fault → Kind
  | vertexUnissued .. | vertexUnissuedForUpdate .. | keyForUnissued .. | edgeUnissued ..
  | proofOfUnissuedEdge .. | tokenUnissued .. | noProof | alreadyInitialised | sharedKey ..
  | nothingExplored | stepBeforeStart | proofBeforeStart | noEdgeBetweenAgreed ..
  | edgeWithinSide .. | foreignRoot .. | noParentEdge .. | parentEdgeAstray .. | parentCycle ..
  | pathBroken .. | chainMismatch .. => .invariant
  | timeoutNotPositive | unknownStrategy | noHeuristic | ruleWithoutColon .. | ruleWithoutEquals ..
  | ruleWithManyEquals .. | rulePartEmpty .. | ruleSideEmpty .. | payloadNotText ..
  | proofNotEquality => .request
  | engineFailed .. | proofFailed .. => .engine

/-- The text of an id that the table of `size` entries has not issued. -/
private def neverIssued (what : String) (id size : Nat) : Text :=
  utf8 what ++ decimal id ++ utf8 " was never issued (size " ++ decimal size ++ utf8 ")"

/-- What there is to say about a fault, with the texts that it quotes in full. -/
def wording : Fault → Text
  | vertexUnissued id size => neverIssued "VertexStore::get: vertex id " id size
  | vertexUnissuedForUpdate id size => neverIssued "VertexStore::get_mutable: vertex id " id size
  | keyForUnissued id =>
    utf8 "VertexStore::index: vertex id " ++ decimal id ++ utf8 " was never issued"
  | edgeUnissued id size => neverIssued "EdgeStore::get: edge id " id size
  | proofOfUnissuedEdge id =>
    utf8 "EdgeStore::force_proof: edge id " ++ decimal id ++ utf8 " was never issued"
  | tokenUnissued id size =>
    utf8 "TokenTable::get: token id " ++ decimal id ++ utf8 " out of range (size " ++
      decimal size ++ utf8 ")"
  | noProof => utf8 "LazyProof::force: no proof thunk and no value"
  | alreadyInitialised => utf8 "SearchState::initialize called twice"
  | sharedKey key =>
    utf8 "SearchState::initialize: both sides share the canonical key " ++ key.quoted
  | nothingExplored => utf8 "SearchDriver::state: no search has been started"
  | stepBeforeStart => utf8 "SearchDriver::step called before start"
  | proofBeforeStart => utf8 "SearchDriver::reconstruct called before start"
  | noEdgeBetweenAgreed edge =>
    utf8 "SearchDriver::reconstruct: sides agree, there is no edge " ++ decimal edge
  | edgeWithinSide edge =>
    utf8 "Edge " ++ decimal edge ++ utf8 " does not connect the two sides"
  | foreignRoot vertex root =>
    utf8 "Parent chain of vertex " ++ decimal vertex ++ utf8 " ends at foreign root " ++
      decimal root
  | noParentEdge vertex =>
    utf8 "Non-root vertex " ++ decimal vertex ++ utf8 " has no parent edge"
  | parentEdgeAstray edge vertex =>
    utf8 "Parent edge " ++ decimal edge ++ utf8 " does not touch vertex " ++ decimal vertex
  | parentCycle vertex =>
    utf8 "Parent chain of vertex " ++ decimal vertex ++ utf8 " contains a cycle"
  | pathBroken edge vertex =>
    utf8 "Proof path breaks at edge " ++ decimal edge ++ utf8 ", which does not touch vertex " ++
      decimal vertex
  | chainMismatch first second =>
    utf8 "StringRewriteEngine::transitivity: " ++ first.quoted ++ utf8 " does not match " ++
      second.quoted
  | timeoutNotPositive => utf8 "SearchConfig: timeout must be positive"
  | unknownStrategy => utf8 "SearchConfig: unknown strategy"
  | noHeuristic => utf8 "BestFirstStrategy requires a heuristic"
  | ruleWithoutColon text => utf8 "StringRule::parse: missing ':' in " ++ text.quoted
  | ruleWithoutEquals text => utf8 "StringRule::parse: missing '=' in " ++ text.quoted
  | ruleWithManyEquals text =>
    utf8 "StringRule::parse: more than one separator in " ++ text.quoted
  | rulePartEmpty text => utf8 "StringRule::parse: empty name or side in " ++ text.quoted
  | ruleSideEmpty name =>
    utf8 "StringRewriteEngine: rule " ++ name.quoted ++ utf8 " has an empty side"
  | payloadNotText pretty =>
    utf8 "StringRewriteEngine: expression " ++ pretty.quoted ++
      utf8 " does not carry a string payload"
  | proofNotEquality => utf8 "StringRewriteEngine: proof was not built by this engine"
  | engineFailed message => message
  | proofFailed name => utf8 "proof of " ++ name ++ utf8 " failed"

/-- The message of a fault: its wording up to the first zero byte. -/
def message (f : Fault) : Text := f.wording.untilNul

end Fault

end Joinability
