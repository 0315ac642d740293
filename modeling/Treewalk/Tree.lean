import Treewalk.Builder

/-! Program trees: programs as they are written, before they are stored in an arena. -/

namespace Treewalk

/-- A program tree. Any part may be absent, and a part may be a hole, which is built in another
way. -/
inductive Tree (η : Type) where
  | absent
  | int (value : Int64)
  | bool (value : Bool)
  | null
  | ident (name : String)
  | print (operand : Tree η)
  | binary (token : String) (left right : Tree η)
  | cond (test yes no : Tree η)
  | loop (test body : Tree η)
  | pair (first second : Tree η)
  | seq (statements : List (Tree η))
  | block (statements : List (Tree η))
  | scopedBlock (statements : List (Tree η))
  | declare (name : String) (init : Tree η)
  | assign (name : String) (value : Tree η)
  | function (params : List String) (body : Tree η)
  | call (callee : Tree η) (args : List (Tree η))
  | hole (filling : η)
deriving Inhabited

namespace Tree

variable {η : Type}

mutual

/-- Builds a tree: its parts in the order written, then its own node. A part that is absent gives
the absent number, and `fill` builds the holes. -/
def build (fill : η → Build (Option NodeId)) : Tree η → Build (Option NodeId)
  | absent => pure none
  | int n => some <$> Builder.int n
  | bool b => some <$> Builder.bool b
  | null => some <$> Builder.null
  | ident x => some <$> Builder.ident x
  | print e => do
    let e ← build fill e
    some <$> Builder.print (.ofOption e)
  | binary token l r => do
    let l ← build fill l
    let r ← build fill r
    Builder.binarySymbol token (.ofOption l) (.ofOption r)
  | cond c t e => do
    let c ← build fill c
    let t ← build fill t
    let e ← build fill e
    some <$> Builder.ifElse (.ofOption c) (.ofOption t) (.ofOption e)
  | loop c b => do
    let c ← build fill c
    let b ← build fill b
    some <$> Builder.whileLoop (.ofOption c) (.ofOption b)
  | pair a b => do
    let a ← build fill a
    let b ← build fill b
    some <$> Builder.seqPair (.ofOption a) (.ofOption b)
  | seq ts => do Builder.seq (← buildAll fill ts)
  | block ts => do Builder.block (← buildAll fill ts)
  | scopedBlock ts => do Builder.scopedBlock (← buildAll fill ts)
  | declare x e => do
    let e ← build fill e
    some <$> Builder.declare x (.ofOption e)
  | assign x e => do
    let e ← build fill e
    some <$> Builder.assign x (.ofOption e)
  | function params b => do
    let b ← build fill b
    some <$> Builder.function params (.ofOption b)
  | call f args => do
    let f ← build fill f
    let args ← buildAll fill args
    some <$> Builder.call (.ofOption f) (args.map .ofOption)
  | hole h => fill h

/-- Builds trees from left to right. -/
def buildAll (fill : η → Build (Option NodeId)) : List (Tree η) → Build (List (Option NodeId))
  | [] => pure []
  | t :: ts => do
    let id ← build fill t
    let ids ← buildAll fill ts
    return id :: ids

end

/-- Builds a whole program and gives its root. -/
def buildProgram (fill : η → Build (Option NodeId)) (trees : List (Tree η)) :
    Build (Option NodeId) := do
  Builder.program (← buildAll fill trees)

end Tree

end Treewalk
