import Machining.Program.Classify

/-!
Dividing a text into a program. Every boundary line opens an operation, which takes all lines up to the next
boundary; what stands in front of the first boundary is leading. No text is refused. With the sentinel rule a
closing marker is taken off the last operation before it is divided, with all that is blank behind it.
-/

namespace Machining

/-- What the lines of an operation say about it. A tool comment counts for more than a `T` word, and the last one
counts; of the words the first counts, and of the names the last. -/
structure Heading where
  name : Option String := none
  tool : Option String := none
  toolDescription : Option String := none
  deriving DecidableEq, Repr

namespace Heading

def addTool (h : Heading) (line : Line) : Heading :=
  match line.toolRemark? with
  | some (tool, description) => { h with tool := some tool, toolDescription := some description }
  | none => if h.tool.isNone then { h with tool := line.toolWord? } else h

def addName (h : Heading) (line : Line) : Heading :=
  match line.operationName? with
  | some name => { h with name := some name }
  | none => h

def add (h : Heading) (line : Line) : Heading := (h.addTool line).addName line

def ofLines (ls : List String) : Heading := ls.foldl (fun h text => h.add (Line.read text)) {}

end Heading

def opensOperation (rule : BoundaryRule) (text : String) : Bool := (Line.read text).isBoundary rule

def isMarker (text : String) : Bool := Text.trim text.toList == ['%']

def isIdle (text : String) : Bool := isMarker text || Text.trim text.toList == []

/-- The lines from the closing marker on. The first line is never among them. -/
def closingLines (ls : List String) : List String :=
  ((ls.drop 1).reverse.takeWhile isIdle).reverse.dropWhile (!isMarker ·)

namespace Operation

def ofLines (first : Nat) (ls : List String) : Operation :=
  let heading := Heading.ofLines ls
  { ordinal := (Line.read (ls.headD "")).ordinal
    name := heading.name
    tool := heading.tool
    toolDescription := heading.toolDescription
    firstLine := first
    lastLine := first + ls.length - 1
    source := ls }

def dropEnd (count : Nat) (op : Operation) : Operation :=
  { op with lastLine := op.lastLine - count, source := op.source.take (op.source.length - count) }

def chainFrom (done : Array Operation) (first : Nat) : List (List String) → Array Operation
  | [] => done
  | ls :: rest => chainFrom (done.push (ofLines first ls)) (first + ls.length) rest

def chain (first : Nat) (groups : List (List String)) : List Operation := (chainFrom #[] first groups).toList

theorem toList_chainFrom (done : Array Operation) (first : Nat) (groups : List (List String)) :
    (chainFrom done first groups).toList = done.toList ++ chain first groups := by
  induction groups generalizing done first with
  | nil => simp [chain, chainFrom]
  | cons ls rest ih =>
    simp only [chain, chainFrom]
    rw [ih (done.push _), ih (#[].push _)]
    simp

theorem chain_nil (first : Nat) : chain first [] = [] := rfl

theorem chain_cons (first : Nat) (ls : List String) (rest : List (List String)) :
    chain first (ls :: rest) = ofLines first ls :: chain (first + ls.length) rest := by
  rw [chain, chainFrom, toList_chainFrom]
  rfl

end Operation

def operationLines (rule : BoundaryRule) (ls : List String) : List (List String) :=
  (ls.dropWhile (!opensOperation rule ·)).splitBy fun _ next => !opensOperation rule next

def trailingLines (rule : TrailingRule) (groups : List (List String)) : List String :=
  match rule with
  | .keep => []
  | .sentinel => closingLines (groups.getLast?.getD [])

def segmentLines (o : Options) (ls : List String) : Program :=
  let leading := ls.takeWhile (!opensOperation o.boundary ·)
  let groups := operationLines o.boundary ls
  let trailing := trailingLines o.trailing groups
  let ops := Operation.chain (leading.length + 1) groups
  { leading
    operations := (ops.dropLast ++ (ops.getLast?.map (·.dropEnd trailing.length)).toList).map Operation.classify
    trailing }

def segment (o : Options) (text : String) : Program := segmentLines o (Text.lines text)

end Machining
