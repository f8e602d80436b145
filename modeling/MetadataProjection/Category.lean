/-!
# MetadataProjection.Category

The closed lists of names that projection answers with.

* `Category`: the five kinds of type a definition can declare.
* `ParamCategory`: how a parameter crosses the call boundary.
* `Convention`: how a method is called.
-/

namespace MetadataProjection

inductive Category where
  | interface | runtimeClass | struct | enum | delegate
deriving DecidableEq, Repr

namespace Category

def all : List Category := [interface, runtimeClass, struct, enum, delegate]

def name : Category → String
  | interface => "interface"
  | runtimeClass => "class"
  | struct => "struct"
  | enum => "enum"
  | delegate => "delegate"

end Category

inductive ParamCategory where
  | input
  | output
  | passArray
  /-- An array the caller allocates and the callee fills: it counts both ways. -/
  | fillArray
  | receiveArray
deriving DecidableEq, Repr

namespace ParamCategory

def all : List ParamCategory := [input, output, passArray, fillArray, receiveArray]

def name : ParamCategory → String
  | input => "in"
  | output => "out"
  | passArray => "pass_array"
  | fillArray => "fill_array"
  | receiveArray => "receive_array"

def isIn : ParamCategory → Bool
  | input | passArray | fillArray => true
  | output | receiveArray => false

def isOut : ParamCategory → Bool
  | output | receiveArray | fillArray => true
  | input | passArray => false

end ParamCategory

inductive Convention where
  | noArgs | singleArg | variableArgs
deriving DecidableEq, Repr

namespace Convention

def all : List Convention := [noArgs, singleArg, variableArgs]

def name : Convention → String
  | noArgs => "no_args"
  | singleArg => "single_arg"
  | variableArgs => "variable_args"

end Convention

end MetadataProjection
