import AutoLang.C.Ty
import AutoLang.C.Writer
import AutoLang.Decimal.Significant
/-! C programs as text: a source file and a header with its prototypes and the system headers. -/

namespace AutoLang.C

def inBraces (text : String) : String := "\x7b" ++ text ++ "\x7d"

def inParens (text : String) : String := "(" ++ text ++ ")"

def commaList (texts : List String) : String := ", ".intercalate texts

/-- a double with a point or an exponent, so that it does not read as an integer -/
def doubleText (d : Float) : String :=
  let text := Decimal.text d
  if text.toList.all fun c => c.isDigit || c == '-' then text ++ ".0" else text

/-- a control character as C escapes it -/
def controlEscape? : Char → Option String
  | '\n' => some "\\n"
  | '\r' => some "\\r"
  | '\t' => some "\\t"
  | '\x00' => some "\\0"
  | _ => none

def charText : Char → String
  | '\'' => "'\\''"
  | '\\' => "'\\\\'"
  | c => "'" ++ (controlEscape? c).getD c.toString ++ "'"

/-- a string whose escapes are those of the source, so only control characters are escaped -/
def stringText (s : String) : String :=
  "\"" ++ String.join (s.toList.map fun c => (controlEscape? c).getD c.toString) ++ "\""

def literalText : Literal → String
  | .byte b | .u8 b => "0x" ++ Value.hexByte b
  | .int n => toString n.toInt
  | .i8 n => toString n.toInt
  | .i64 n => toString n.toInt
  | .uint n => toString n.toNat ++ "u"
  | .double d => doubleText d
  | .bool b => if b then "true" else "false"
  | .char c => charText c
  | .str s | .cstr s => stringText s
  | .nil | .null => "NULL"

def literalHeaders : Literal → List String
  | .bool _ => ["<stdbool.h>"]
  | .nil | .null => ["<stddef.h>"]
  | _ => []

def Conversion.text : Conversion → String
  | decimal => "%d"
  | unsigned => "%u"
  | general => "%g"
  | character => "%c"
  | string => "%s"

/-- whether an expression needs parentheses as an operand -/
def Expr.isCompound : Expr → Bool
  | binary _ _ _ => true
  | choice _ _ _ => true
  | _ => false

def asOperand (e : Expr) (text : String) : String := if e.isCompound then inParens text else text

mutual

def exprText : Expr → String
  | .literal v => literalText v
  | .name n => n
  | .unary op e => op.symbol ++ asOperand e (exprText e)
  | .binary l op r =>
    asOperand l (exprText l) ++ " " ++ op.symbol ++ " " ++ asOperand r (exprText r)
  | .member o f => asOperand o (exprText o) ++ "." ++ exprText f
  | .items es => inBraces (commaList (exprTexts es))
  | .fields fs => inBraces (commaList (fieldTexts fs))
  | .call c as => asOperand c (exprText c) ++ inParens (commaList (exprTexts as))
  | .printf conversions args =>
    let format := "\"" ++ " ".intercalate (conversions.map (·.text)) ++ "\\n\""
    "printf" ++ inParens (commaList (format :: exprTexts args))
  | .index a i => asOperand a (exprText a) ++ "[" ++ exprText i ++ "]"
  | .choice t y n =>
    inParens (exprText t) ++ " ? " ++ inParens (exprText y) ++ " : " ++ inParens (exprText n)
  | .bare e => exprText e

def exprTexts : List Expr → List String
  | [] => []
  | e :: es => exprText e :: exprTexts es

def fieldTexts : List (String × Expr) → List String
  | [] => []
  | (k, e) :: fs => ("." ++ k ++ " = " ++ exprText e) :: fieldTexts fs

end

mutual

/-- the headers that an expression needs -/
def exprHeaders : Expr → List String
  | .literal v => literalHeaders v
  | .name _ => []
  | .unary _ e => exprHeaders e
  | .binary l _ r => exprHeaders l ++ exprHeaders r
  | .member o f => exprHeaders o ++ exprHeaders f
  | .items es => exprsHeaders es
  | .fields fs => fieldsHeaders fs
  | .call c as => exprHeaders c ++ exprsHeaders as
  | .printf _ args => "<stdio.h>" :: exprsHeaders args
  | .index a i => exprHeaders a ++ exprHeaders i
  | .choice t y n => exprHeaders t ++ exprHeaders y ++ exprHeaders n
  | .bare e => exprHeaders e

def exprsHeaders : List Expr → List String
  | [] => []
  | e :: es => exprHeaders e ++ exprsHeaders es

def fieldsHeaders : List (String × Expr) → List String
  | [] => []
  | (_, e) :: fs => exprHeaders e ++ fieldsHeaders fs

end

mutual

/-- the headers that a statement needs; a declaration needs those of its value first -/
def stmtHeaders : Stmt → List String
  | .expr e => exprHeaders e
  | .declare ty _ e => exprHeaders e ++ tyHeaders ty
  | .block b => stmtsHeaders b
  | .cond t y r => exprHeaders t ++ stmtsHeaders y ++ restHeaders r
  | .loop _ a b _ body => exprHeaders a ++ exprHeaders b ++ stmtsHeaders body
  | .leave => []
  | .result e => exprHeaders e

def stmtsHeaders : List Stmt → List String
  | [] => []
  | s :: ss => stmtHeaders s ++ stmtsHeaders ss

def restHeaders : Rest → List String
  | .done => []
  | .orElse b => stmtsHeaders b
  | .orIf t y r => exprHeaders t ++ stmtsHeaders y ++ restHeaders r

end

mutual

def writeStmt : Stmt → Writer → Writer
  | .expr e, w => w.line (exprText e ++ ";")
  | .declare ty n e, w => w.line (declarator ty n ++ " = " ++ exprText e ++ ";")
  | .block b, w => ((writeStmts b (w.line "\x7b").indent).dedent).line "\x7d"
  | .cond t y r, w =>
    let opened := w.line ("if " ++ inParens (exprText t) ++ " \x7b")
    (writeRest r (writeStmts y opened.indent).dedent).line "\x7d"
  | .loop n a b inclusive body, w =>
    let test := n ++ (if inclusive then " <= " else " < ") ++ exprText b
    let head := "int " ++ n ++ " = " ++ exprText a ++ "; " ++ test ++ "; " ++ n ++ "++"
    let opened := w.line ("for " ++ inParens head ++ " \x7b")
    ((writeStmts body opened.indent).dedent).line "\x7d"
  | .leave, w => w.line "break;"
  | .result e, w => w.line ("return " ++ exprText e ++ ";")

def writeStmts : List Stmt → Writer → Writer
  | [], w => w
  | s :: ss, w => writeStmts ss (writeStmt s w)

/-- the branches after the first one, without the last brace -/
def writeRest : Rest → Writer → Writer
  | .done, w => w
  | .orElse b, w => (writeStmts b (w.line "\x7d else \x7b").indent).dedent
  | .orIf t y r, w =>
    let opened := w.line ("\x7d else if " ++ inParens (exprText t) ++ " \x7b")
    writeRest r (writeStmts y opened.indent).dedent

end

namespace Function

def prototype (f : Function) : String :=
  let params := if f.params.isEmpty then "void"
    else commaList (f.params.map fun (ty, n) => declarator ty n)
  (f.result.map tyName).getD "void" ++ " " ++ f.name ++ inParens params

/-- the headers of the result, the parameters and the body; an array parameter needs those of its
elements -/
def headers (f : Function) : List String :=
  (f.result.map tyHeaders).getD [] ++ f.params.flatMap (fun (ty, _) => tyHeaders ty)
    ++ stmtsHeaders f.body

def write (f : Function) (w : Writer) : Writer :=
  let opened := w.line (f.prototype ++ " \x7b")
  (((writeStmts f.body opened.indent).dedent).line "\x7d").newline

end Function

/-- how a header is kept from being included twice -/
inductive GuardStyle where
  | pragma
  | define
deriving DecidableEq, Repr, Inhabited

/-- the macro that guards the header of a module -/
def guardName (name : String) : String :=
  String.ofList (name.toList.map fun c => if c.isAlphanum then c.toUpper else '_') ++ "_H"

namespace Program

def mainPrototype : String := "int main(void)"

def prototypes (p : Program) : List String :=
  p.functions.map (·.prototype) ++ (if p.main.isSome then [mainPrototype] else [])

/-- the system headers in the order of their first use -/
def headers (p : Program) : List String :=
  let used := p.functions.flatMap (·.headers) ++ (p.main.map stmtsHeaders).getD []
  (used.foldl Writer.require .empty).headers

/-- the source file, but for its first line -/
def body (p : Program) : String :=
  let w := p.functions.foldl (fun w f => f.write w) Writer.empty
  let w := match p.main with
    | none => w
    | some b =>
      let inner := writeStmts b (w.line (mainPrototype ++ " \x7b")).indent
      ((inner.line "return 0;").dedent).line "\x7d"
  w.output

def sourceText (p : Program) (name : String) : String :=
  "#include \"" ++ name ++ ".h\"\n\n" ++ p.body

def headerText (p : Program) (name : String) (style : GuardStyle) : String :=
  let guard := guardName name
  let includes := p.headers.map fun h => "#include " ++ h ++ "\n"
  let declared := p.prototypes.map (· ++ ";\n")
  (match style with
    | .pragma => "#pragma once\n\n"
    | .define => "#ifndef " ++ guard ++ "\n#define " ++ guard ++ "\n\n")
    ++ String.join includes ++ (if includes.isEmpty then "" else "\n")
    ++ String.join declared
    ++ (match style with
    | .pragma => ""
    | .define => (if declared.isEmpty then "" else "\n") ++ "#endif // " ++ guard ++ "\n")

end Program

end AutoLang.C
