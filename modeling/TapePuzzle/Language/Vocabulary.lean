/-!
# Words of the language

Block keywords, functions, kinds of objects with their methods, and the words that cannot be used
as names.
-/

namespace TapePuzzle

/-- The three headers that lines can be indented under. -/
inductive BlockKind where
  | ifBlock
  | whileBlock
  | elseBlock
  deriving DecidableEq, Repr

namespace BlockKind

def all : List BlockKind := [ifBlock, whileBlock, elseBlock]

def keyword : BlockKind → String
  | ifBlock => "if"
  | whileBlock => "while"
  | elseBlock => "else"

end BlockKind

/-- The functions every program can call. -/
inductive Builtin where
  /-- Takes the next input value. -/
  | input
  /-- Appends a value to the output. -/
  | output
  /-- Ends the run. -/
  | finish
  deriving DecidableEq, Repr

namespace Builtin

def all : List Builtin := [input, output, finish]

def name : Builtin → String
  | input => "input"
  | output => "output"
  | finish => "end"

/-- Number of arguments, zero or one. -/
def arity : Builtin → Nat
  | output => 1
  | input | finish => 0

def ofName? (name : String) : Option Builtin := all.find? fun b => b.name = name

end Builtin

/-- The methods of objects. -/
inductive Method where
  | push
  | pop
  | enqueue
  | dequeue
  | length
  | next
  deriving DecidableEq, Repr

namespace Method

def name : Method → String
  | push => "push"
  | pop => "pop"
  | enqueue => "enqueue"
  | dequeue => "dequeue"
  | length => "length"
  | next => "next"

/-- Number of arguments, zero or one. -/
def arity : Method → Nat
  | push | enqueue => 1
  | pop | dequeue | length | next => 0

end Method

/-- The kinds of objects. -/
inductive ObjectKind where
  | stack
  | queue
  | feed
  deriving DecidableEq, Repr

namespace ObjectKind

def all : List ObjectKind := [stack, queue, feed]

/-- The word that declares an object of the kind. -/
def keyword : ObjectKind → String
  | stack => "stack"
  | queue => "queue"
  | feed => "feed"

def ofKeyword? (word : String) : Option ObjectKind := all.find? fun k => k.keyword = word

/-- The methods that objects of the kind have. -/
def methods : ObjectKind → List Method
  | stack => [.push, .pop, .length]
  | queue => [.enqueue, .dequeue, .length]
  | feed => [.next]

def method? (kind : ObjectKind) (name : String) : Option Method :=
  kind.methods.find? fun m => m.name = name

end ObjectKind

/-- The keywords of the language. -/
def keywords : List String :=
  ["if", "else", "while", "jump", "tapelength", "stack", "queue", "feed"]

/-- A word that the language keeps for itself, so that a program cannot declare it. -/
def isReserved (word : String) : Bool := keywords.contains word || (Builtin.ofName? word).isSome

end TapePuzzle
