import Joinability.Engine.Basic
import Joinability.Engine.Evidence
import Joinability.Rule.Basic

/-!
# Rewriting by rules

The engine of a list of rules works on the text that a term carries. Its cursor is the number of the
next site, in the order in which the sites of the text are listed, so the reducts of a vertex come
from the sites of its text one by one.
-/

namespace Joinability

namespace Engine

/-- The reduct at a site of a text, after which the cursor stands at `next`. -/
def reductAt (t : Text) (s : Site) (next : Nat) : Reduct Payload Recipe :=
  { term := .ofText (s.result t), next, recipe := some (.byRule t (s.result t) s.use),
    use := s.use }

/-- The engine that uses rules on texts. -/
def ofRules (rules : List Rule) : Engine Tally Payload Recipe Evidence where
  tryNext v cursor tally :=
    (v.term.text.map fun t ↦ (sites rules t)[cursor]?.map fun s ↦ reductAt t s (cursor + 1), tally)
  prove := Recipe.run
  reflexivity := Evidence.reflexivity
  symmetry := Evidence.symmetry
  transitivity := Evidence.transitivity

/-- The reducts of a vertex by rules, found by following the cursors from the start. -/
def reductsByRules (rules : List Rule) (v : Vertex Payload) (tally : Tally) :
    Except Fault (List (Reduct Payload Recipe)) × Tally :=
  let siteCount := match v.term.text with
    | .ok t => (sites rules t).length
    | .error _ => 0
  let (answer, tally) := (ofRules rules).follow v (siteCount + 1) 0 tally
  (answer.map Prod.fst, tally)

end Engine

/-- Adds a rule at the end of a list of rules. A rule with an empty side is refused. -/
def addRule (rules : List Rule) (r : Rule) : Except Fault (List Rule) :=
  if r.isUsable then .ok (rules ++ [r]) else .error (.ruleSideEmpty r.name)

end Joinability
