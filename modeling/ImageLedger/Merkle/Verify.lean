import ImageLedger.Merkle.Tree

namespace ImageLedger.Merkle

/-- The digest above a node and its sibling. -/
def climb (node : Digest) (step : Step) : Option Digest :=
  match Digest.ofHex? step.sibling with
  | none => none
  | some sibling =>
    match step.side with
    | .right => some (hashPair node sibling)
    | .left => some (hashPair sibling node)

def replay : Digest → List Step → Option Digest
  | node, [] => some node
  | node, step :: rest =>
    match climb node step with
    | some parent => replay parent rest
    | none => none

def verify (leaf : String) (path : List Step) (root : String) : Bool :=
  if HashText.wellFormed root then
    match Digest.ofHex? leaf with
    | none => false
    | some node =>
      match replay node path with
      | some top => top.toHex = HashText.lower root
      | none => false
  else false

def Side.ofText? (s : String) : Option Side :=
  if s = "left" then some .left else if s = "right" then some .right else none

def Side.toText : Side → String
  | left => "left"
  | right => "right"

/-- The step described by an object with a sibling hash and a position. -/
def Step.ofJson? (step : Json) : Option Step := do
  let sibling ← (← step.field? "siblingHash").text?
  let side ← Side.ofText? (← (← step.field? "position").text?)
  return ⟨sibling, side⟩

/-- Verification of values of any type. A step that is `null` has no fields to look at; there is no
answer once the path leads to one. -/
def verifyReceived (leaf : Json) (path : List Json) (root : Json) : Option Bool :=
  let front := path.takeWhile (· != .null)
  match leaf, root with
  | .text leaf, .text root =>
    if HashText.wellFormed root then
      match Digest.ofHex? leaf, front.mapM Step.ofJson? with
      | some node, some steps =>
        match replay node steps with
        | some top =>
          if front.length < path.length then none
          else some (top.toHex = HashText.lower root)
        | none => some false
      | _, _ => some false
    else some false
  | _, _ => some false

end ImageLedger.Merkle
