import MiddleEnd.Format
import MiddleEnd.Listing.Literal
import MiddleEnd.Program

/-!
# Program listings

A listing has four sections: string constants, global variables, declarations and functions.
Deleted functions and deleted blocks are left out.  Results are named after their instruction
(`%v7`), parameters by position (`%a0`).

A formatted print is listed as calls of `putstr` for the texts of its format and of `putint` for
its arguments.  The texts are constants of their own, numbered within their format, and `printf`
is not declared.

A listing is a list of lines.  A line that cannot be written is an error, and the lines before it
are listed.
-/

namespace MiddleEnd

abbrev Line := Except Error String

namespace Listing

/-- A handle or an index that names nothing cannot be listed. -/
def within (inRange : Bool) (text : String) : Line :=
  if inRange then .ok text else .error .outOfRange

def commaSep (parts : List String) : String :=
  ", ".intercalate parts

/-! ## Strings -/

/-- The constant of a pooled string or of a piece of it. -/
def stringLine (name text : String) : String :=
  "@.str_" ++ name ++ " = constant [" ++ toString (Literal.length text) ++ " x i8] c\"" ++
    Literal.encode text ++ "\""

/-- The nonempty pieces of a format with their numbers, which count from one. -/
def numberedPieces (format : String) : List (Nat × String) :=
  ((Format.pieces format).zipIdx 1).filterMap fun (piece, n) =>
    if piece.isEmpty then none else some (n, piece)

def pieceName (s : StrId) (n : Nat) : String :=
  toString (s.idx + 1) ++ "_" ++ toString n

def pieceLines (p : Program) (s : StrId) : List Line :=
  if p.hasString s then
    (numberedPieces (p.string s)).map fun (n, piece) => .ok (stringLine (pieceName s n) piece)
  else [.error .outOfRange]

/-- The functions that are listed with a body. -/
def bodies (p : Program) : List Func :=
  p.funcs.toList.filter Func.isDefined

def formatOf? : Instr → Option StrId
  | .call _ _ format => format
  | _ => none

/-- The formats of the prints of a function. -/
def formatsOf (f : Func) : List StrId :=
  f.liveInsts.filterMap fun i => formatOf? (f.instr i)

/-- The formats of all prints listed, in the order of the pool and without repetitions. -/
def formats (p : Program) : List StrId :=
  let used := (bodies p).flatMap formatsOf
  (used.mergeSort fun a b => a.idx ≤ b.idx).eraseReps

def stringLines (p : Program) : List Line :=
  (p.strings.toList.zipIdx 1).map (fun (text, n) => .ok (stringLine (toString n) text)) ++
    (formats p).flatMap (pieceLines p)

/-! ## Globals -/

/-- Cuts `count` chunks of the given size off a list, if it is long enough. -/
def chunks? {α : Type} (size : Nat) : Nat → List α → Option (List (List α))
  | 0, _ => some []
  | count + 1, cells =>
    if (cells.take size).length < size then none
    else (chunks? size count (cells.drop size)).map (cells.take size :: ·)

/-- The literal of an object of type `t` with the given cells.  Missing cells are zero, but an array
that is not all zero has to have all of them. -/
def initializer (t : Ty) (cells : List Constant) : Line :=
  match t with
  | .array n elem =>
    if cells.all Constant.isZero then .ok "zeroinitializer"
    else
      match chunks? elem.cells n cells with
      | none => .error .outOfRange
      | some parts => do
        let items ← parts.mapM fun part => return elem.text ++ " " ++ (← initializer elem part)
        return "[" ++ commaSep items ++ "]"
  | t => .ok (((cells.head?.orElse fun _ => Constant.zero? t).map Constant.text).getD
      "zeroinitializer")

/-- Adds zeros up to the given length, if there is a zero, and cuts off what exceeds it. -/
def fitCells (count : Nat) (zero? : Option Constant) (cells : List Constant) : List Constant :=
  let padding := match zero? with
    | some zero => .replicate (count - cells.length) zero
    | none => []
  (cells ++ padding).take count

def globalInit (g : Global) : Line :=
  match g.init with
  | .scalar c => .ok c.text
  | .zero => initializer g.ty []
  | .array cells => initializer g.ty (fitCells g.ty.cells (Constant.zero? g.ty.scalar) cells)

def globalLine (g : Global) : Line := do
  return "@" ++ g.name ++ " = global " ++ g.ty.text ++ " " ++ (← globalInit g)

/-! ## Declarations -/

def declarationOf (name : String) (ret : Ty) (params : List Ty) : String :=
  "declare " ++ ret.text ++ " @" ++ name ++ "(" ++ commaSep (params.map Ty.text) ++ ")"

def builtinDeclaration (b : Builtin) : String :=
  declarationOf b.name b.ret b.params

/-- In place of `printf`, the functions that a print is listed with are declared. -/
def declarationLines (p : Program) : List String :=
  let externals := p.funcs.toList.filter Func.external
  let missing b := if externals.any (·.name = b.name) then [] else [builtinDeclaration b]
  externals.flatMap fun f =>
    if f.name = Builtin.printf.name then missing .putstr ++ missing .putint
    else [declarationOf f.name f.ret (f.params.toList.map Param.ty)]

/-! ## Instructions -/

def operandText (p : Program) : Operand → String
  | .inst i => i.text
  | .arg n => "%a" ++ toString n
  | .const c => c.text
  | .global g => "@" ++ (p.global g).name

/-- An operand after its type. -/
def typed (p : Program) (f : Func) (v : Operand) : String :=
  (p.typeOf f v).text ++ " " ++ operandText p v

def target (f : Func) (b : BlockId) : String :=
  "label %" ++ (f.block b).label

/-- What a formatted print does, in order. -/
inductive PrintStep
  | text (number : Nat) (piece : String)
  | int (value : Operand)

/-- The steps of a print of the pieces from `number` on and the remaining arguments. -/
def printSteps : Nat → List String → List Operand → List PrintStep
  | _, [], args => args.map .int
  | n, piece :: pieces, args =>
    (if piece.isEmpty then [] else [.text n piece]) ++ (args.take 1).map .int ++
      printSteps (n + 1) pieces args.tail

def printStepLines (p : Program) (f : Func) (i : InstId) (s : StrId) : PrintStep → List Line
  | .text n piece =>
    let name := i.text ++ "_s" ++ toString n
    let ty := "[" ++ toString (Literal.length piece) ++ " x i8]"
    [.ok ("  " ++ name ++ " = getelementptr " ++ ty ++ ", " ++ ty ++ "* @.str_" ++ pieceName s n ++
      ", i32 0, i32 0"), .ok ("  call void @putstr(i8* " ++ name ++ ")")]
  | .int v => [within (p.admits f v) ("  call void @putint(" ++ typed p f v ++ ")")]

def printLines (p : Program) (f : Func) (i : InstId) (s : StrId) (args : List Operand) :
    List Line :=
  if p.hasString s then
    (printSteps 1 (Format.pieces (p.string s)) args).flatMap (printStepLines p f i s)
  else [.error .outOfRange]

/-- The text of an instruction other than a print. -/
def instText (p : Program) (f : Func) (i : InstId) : Line :=
  let ty := (f.inst i).ty.text
  let result text := i.text ++ " = " ++ text
  let typed := typed p f
  let text := operandText p
  match f.instr i with
  | .alloc t => .ok (result ("alloca " ++ t.text))
  | .load ptr => .ok (result ("load " ++ ty ++ ", " ++ typed ptr))
  | .store value ptr => .ok ("store " ++ typed value ++ ", " ++ typed ptr)
  | .element base offsets =>
    let baseTy := p.typeOf f base
    .ok (result ("getelementptr " ++
      commaSep ((baseTy.pointee?.getD baseTy).text :: (base :: offsets).map typed)))
  | .binary op lhs rhs => .ok (result (op.name ++ " " ++ typed lhs ++ ", " ++ text rhs))
  | .icmp c lhs rhs =>
    .ok (result ("icmp " ++ c.signedName ++ " " ++ typed lhs ++ ", " ++ text rhs))
  | .fcmp c lhs rhs =>
    .ok (result ("fcmp " ++ c.orderedName ++ " " ++ typed lhs ++ ", " ++ text rhs))
  | .cast op value => .ok (result (op.name ++ " " ++ typed value ++ " to " ++ ty))
  | .call callee args _ =>
    let g := p.func callee
    let call :=
      "call " ++ g.ret.text ++ " @" ++ g.name ++ "(" ++ commaSep (args.map typed) ++ ")"
    within (p.hasFunc callee) (if g.ret = .void then call else result call)
  | .branch cond onTrue onFalse => within (f.hasBlock onTrue && f.hasBlock onFalse)
      ("br " ++ commaSep [typed cond, target f onTrue, target f onFalse])
  | .jump (some b) => within (f.hasBlock b) ("br " ++ target f b)
  | .jump none => .error (.internal (.pendingJumpListed i f.name))
  | .ret (some value) => .ok ("ret " ++ typed value)
  | .ret none => .ok "ret void"
  | .phi entries =>
    let entryText e := "[ " ++ (e.value.map text).getD "undef" ++ ", %" ++
      (f.block e.block).label ++ " ]"
    within (entries.all fun e => f.hasBlock e.block)
      (result ("phi " ++ ty ++ " " ++ commaSep (entries.map entryText)))

def instLines (p : Program) (f : Func) (i : InstId) : List Line :=
  match f.instr i with
  | .call _ args (some s) => printLines p f i s args
  | instr =>
    if instr.operands.all (p.admits f) then [return "  " ++ (← instText p f i)]
    else [.error .outOfRange]

/-! ## Functions -/

def paramText (p : Param) (n : Nat) : String :=
  p.ty.text ++ " %a" ++ toString n

def headLine (f : Func) : String :=
  "define " ++ f.ret.text ++ " @" ++ f.name ++ "(" ++
    commaSep (f.params.toList.zipIdx.map fun (p, n) => paramText p n) ++ ") \x7b"

def funcLines (p : Program) (f : Func) : List Line :=
  [.ok (headLine f)] ++
    f.liveBlocks.flatMap (fun b =>
      .ok ((f.block b).label ++ ":") :: (f.instsOf b).flatMap (instLines p f)) ++
    [.ok "\x7d"]

/-- Lists lines where `room` bytes can be written, and gives the room that is left. -/
def write (room : Nat) : List Line → Except Error Nat
  | [] => .ok room
  | line :: lines => do
    let size := (← line).utf8ByteSize + 1
    if room < size then .error .sinkFull else write (room - size) lines

end Listing

namespace Program

open Listing

def listingLines (p : Program) : List Line :=
  stringLines p ++ p.globals.toList.map globalLine ++ (declarationLines p).map .ok ++
    (bodies p).flatMap (funcLines p)

/-- The program as text. -/
def listing (p : Program) : Except Error String := do
  return String.join ((← p.listingLines.mapM id).map (· ++ "\n"))

/-- Lists the program where `room` bytes can be written. -/
def writeListing (p : Program) (room : Nat) : Except Error Nat :=
  Listing.write room p.listingLines

end Program

end MiddleEnd
