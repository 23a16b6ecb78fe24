import MiddleEnd.Builtin
import MiddleEnd.Func

/-!
# Programs

A program has a table of the types in use, global variables, a pool of string literals and
functions.  The names of globals are unique, and so are those of functions.
-/

namespace MiddleEnd

inductive GlobalInit
  | scalar (value : Constant)
  /-- The cells in order; missing ones at the end are zero. -/
  | array (values : List Constant)
  | zero
deriving DecidableEq, Inhabited

structure Global where
  name : String
  ty : Ty
  init : GlobalInit
deriving DecidableEq, Inhabited

/-- As a value, a global is its address. -/
def Global.ptrTy (g : Global) : Ty :=
  .pointer g.ty

structure Program where
  types : TypeTable := .new
  globals : Array Global := #[]
  strings : Array String := #[]
  funcs : Array Func := #[]
deriving Inhabited

namespace Program

def intern (p : Program) (t : Ty) : Program :=
  { p with types := p.types.intern t }

/-! ## Globals and strings -/

def hasGlobal (p : Program) (g : GlobalId) : Bool :=
  g.idx < p.globals.size

def global (p : Program) (g : GlobalId) : Global :=
  p.globals.getD g.idx default

def findGlobal? (p : Program) (name : String) : Option GlobalId :=
  (p.globals.findIdx? fun g => g.name = name).map .mk

def addGlobal (p : Program) (name : String) (ty : Ty) (init : GlobalInit) :
    Except Error (GlobalId × Program) :=
  if (p.findGlobal? name).isSome then .error (.duplicateDefinition name)
  else
    let p := p.intern (.pointer ty)
    .ok (⟨p.globals.size⟩, { p with globals := p.globals.push { name, ty, init } })

def hasString (p : Program) (s : StrId) : Bool :=
  s.idx < p.strings.size

def string (p : Program) (s : StrId) : String :=
  p.strings.getD s.idx ""

def addString (p : Program) (text : String) : StrId × Program :=
  (⟨p.strings.size⟩, { p with strings := p.strings.push text })

/-! ## Functions -/

def hasFunc (p : Program) (f : FuncId) : Bool :=
  f.idx < p.funcs.size

def func (p : Program) (f : FuncId) : Func :=
  p.funcs.getD f.idx default

/-- The function of a handle, which has to exist. -/
def getFunc (p : Program) (f : FuncId) : Except Error Func :=
  if p.hasFunc f then .ok (p.func f) else .error .outOfRange

def funcIds (p : Program) : List FuncId :=
  (List.range p.funcs.size).map .mk

def setFunc (p : Program) (f : FuncId) (func : Func) : Program :=
  { p with funcs := p.funcs.setIfInBounds f.idx func }

def findFunc? (p : Program) (name : String) : Option FuncId :=
  (p.funcs.findIdx? fun f => f.name = name).map .mk

def funcByName (p : Program) (name : String) : Except Error FuncId :=
  match p.findFunc? name with
  | some f => .ok f
  | none => .error (.unknownFunction name)

def addFunc (p : Program) (f : Func) : FuncId × Program :=
  let p := p.intern f.signature
  (⟨p.funcs.size⟩, { p with funcs := p.funcs.push f })

/-- Adds a function without blocks. -/
def define (p : Program) (name : String) (ret : Ty) (params : List Ty) :
    Except Error (FuncId × Program) :=
  if (p.findFunc? name).isSome then .error (.duplicateDefinition name)
  else .ok (p.addFunc (.new name ret params))

/-- Adds a declaration, unless there is a function of that name already. -/
def declare (p : Program) (name : String) (ret : Ty) (params : List Ty) : FuncId × Program :=
  match p.findFunc? name with
  | some f => (f, p)
  | none => p.addFunc { Func.new name ret params with external := true }

def declareBuiltin (p : Program) (b : Builtin) : FuncId × Program :=
  { p with types := Builtin.internParts p.types }.declare b.name b.ret b.params

/-- The type of a value in a function; a value without a type counts as `void`. -/
def typeOf (p : Program) (f : Func) : Operand → Ty
  | .global g => (p.global g).ptrTy
  | v => (f.typeOf? v).getD .void

/-- Does the operand name something that exists?  Parameters are not checked. -/
def admits (p : Program) (f : Func) : Operand → Bool
  | .global g => p.hasGlobal g
  | v => f.admits v

/-- The type of a value in the function of a handle.  A global has the same type everywhere, so the
function has to exist for other values only. -/
def typeIn (p : Program) (f : FuncId) (v : Operand) : Except Error Ty :=
  if p.admits (p.func f) v && (v.isGlobal || p.hasFunc f) then .ok (p.typeOf (p.func f) v)
  else .error .outOfRange

end Program

end MiddleEnd
