/-
ReversePolish/Command/Basic.lean

The commands of the language, by what they can touch.

* An *operator* takes operands from the stack and gives back results that
  depend on nothing else.
* An *effect* reads or changes something beyond its operands: the depth of
  the stack, the variables, the host, or the run itself.
* A *control* command evaluates code that it finds on the stack.
-/

namespace ReversePolish

inductive Operator where
  | add | subtract | multiply | divide | remainder | power | round
  | conjoin | disjoin | negate | equal | less
  | repeatText | decode | encode | concat | replace | split | join | find
  | get | set | delete | append | insert | sort | reverse | range | length
  | drop | kind | cast | duplicate | swap
  deriving DecidableEq

inductive Effect where
  | print | input | exit
  | depth | define | names | free
  | now | sleep
  deriving DecidableEq

inductive Control where
  | evaluate | choose | loop | forEach | mapEach | filterEach
  deriving DecidableEq

inductive Command where
  | operator (op : Operator)
  | effect (eff : Effect)
  | control (ctl : Control)
  deriving DecidableEq

/-! ### Names -/

def Operator.name : Operator → String
  | add => "add"
  | subtract => "sub"
  | multiply => "mul"
  | divide => "div"
  | remainder => "mod"
  | power => "pow"
  | round => "round"
  | conjoin => "and"
  | disjoin => "or"
  | negate => "not"
  | equal => "equal"
  | less => "less"
  | repeatText => "repeat"
  | decode => "decode"
  | encode => "encode"
  | concat => "concat"
  | replace => "replace"
  | split => "split"
  | join => "join"
  | find => "find"
  | get => "get"
  | set => "set"
  | delete => "del"
  | append => "append"
  | insert => "insert"
  | sort => "sort"
  | reverse => "reverse"
  | range => "range"
  | length => "len"
  | drop => "pop"
  | kind => "type"
  | cast => "cast"
  | duplicate => "copy"
  | swap => "swap"

def Effect.name : Effect → String
  | print => "print"
  | input => "input"
  | exit => "exit"
  | depth => "size-stack"
  | define => "var"
  | names => "mem"
  | free => "free"
  | now => "now-time"
  | sleep => "sleep"

def Control.name : Control → String
  | evaluate => "eval"
  | choose => "if"
  | loop => "while"
  | forEach => "for"
  | mapEach => "map"
  | filterEach => "filter"

namespace Command

def name : Command → String
  | operator op => op.name
  | effect eff => eff.name
  | control ctl => ctl.name

/-- All commands, in the order in which they are listed to the user:
arithmetic, logic, texts, the console, control, lists, the stack and the
variables, time. -/
def all : List Command :=
  [operator .add, operator .subtract, operator .multiply, operator .divide,
   operator .remainder, operator .power, operator .round,
   operator .conjoin, operator .disjoin, operator .negate, operator .equal, operator .less,
   operator .repeatText, operator .decode, operator .encode, operator .concat,
   operator .replace, operator .split, operator .join, operator .find,
   effect .print, effect .input,
   control .evaluate, control .choose, control .loop, effect .exit,
   operator .get, operator .set, operator .delete, operator .append, operator .insert,
   operator .sort, operator .reverse, control .forEach, control .mapEach,
   control .filterEach, operator .range, operator .length,
   operator .drop, effect .depth, effect .define, operator .kind, operator .cast,
   effect .names, effect .free, operator .duplicate, operator .swap,
   effect .now, effect .sleep]

/-- The command with a given name. -/
def ofName? (s : String) : Option Command := all.find? (·.name == s)

/-- Every command is listed. -/
theorem mem_all (c : Command) : c ∈ all := by
  rcases c with op | eff | ctl
  · cases op <;> decide
  · cases eff <;> decide
  · cases ctl <;> decide

/-- A command is found under its own name. -/
@[simp] theorem ofName?_name (c : Command) : ofName? c.name = some c := by
  rcases c with op | eff | ctl
  · cases op <;> decide
  · cases eff <;> decide
  · cases ctl <;> decide

/-- What is found under a name has that name. -/
theorem name_of_ofName? {s : String} {c : Command} (h : ofName? s = some c) : c.name = s := by
  have found := List.find?_some h
  exact eq_of_beq found

end Command

end ReversePolish
