import MiddleEnd.Ty.Table

/-!
# Built-in functions

The functions that every program can call without defining them: input, output, timing, and the
filling of memory.  A program declares one when it first calls it.
-/

namespace MiddleEnd

inductive Builtin
  | getint
  | getch
  | getfloat
  | getarray
  | getfarray
  | putint
  | putch
  | putfloat
  | putarray
  | putfarray
  | putstr
  | starttime
  | stoptime
  | memset
  /-- Formatted output; a call carries its format and one argument per directive. -/
  | printf
deriving DecidableEq, Inhabited

namespace Builtin

def all : List Builtin :=
  [getint, getch, getfloat, getarray, getfarray, putint, putch, putfloat, putarray, putfarray,
    putstr, starttime, stoptime, memset, printf]

def name : Builtin → String
  | getint => "getint"
  | getch => "getch"
  | getfloat => "getfloat"
  | getarray => "getarray"
  | getfarray => "getfarray"
  | putint => "putint"
  | putch => "putch"
  | putfloat => "putfloat"
  | putarray => "putarray"
  | putfarray => "putfarray"
  | putstr => "putstr"
  | starttime => "starttime"
  | stoptime => "stoptime"
  | memset => "memset"
  | printf => "printf"

def ofName? (name : String) : Option Builtin :=
  all.find? fun b => b.name = name

def ret : Builtin → Ty
  | getint | getch | getarray | getfarray => .i32
  | getfloat => .float
  | _ => .void

def params : Builtin → List Ty
  | getarray => [.pointer .i32]
  | getfarray => [.pointer .float]
  | putint | putch => [.i32]
  | putfloat => [.float]
  | putarray => [.i32, .pointer .i32]
  | putfarray => [.i32, .pointer .float]
  | putstr => [.pointer .i8]
  | memset => [.pointer .i32, .i32, .i32]
  | _ => []

/-- Enters the pointer types that the signatures of built-in functions are made of. -/
def internParts (types : TypeTable) : TypeTable :=
  ((types.intern (.pointer .i32)).intern (.pointer .float)).intern (.pointer .i8)

end Builtin

end MiddleEnd
