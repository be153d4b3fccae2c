import PrimeMover.Value
import PrimeMover.LineEdit
import PrimeMover.CTokens

/-! ccruncher.lua, which takes the white space and the comments out of a C file. What it does
with the lines of a directive is a parameter. -/
namespace PrimeMover.Cruncher
open LuaPattern CTokens

/-- What the coroutine does with the writer: it hands over a text or sets one of its flags. -/
inductive Emission where
  | emit (s : LuaString)
  | emit_nl
  | emit_ws
  | breaks_on
  | breaks_off

/-- The variables `nl`, `ws`, `id` and `breaks`. -/
structure Writer where
  nl : Bool
  ws : Bool
  id : Bool
  breaks : Bool

def Writer.start : Writer := ⟨false, false, false, true⟩

/-- `emit`: the strings it yields and the flags behind it. -/
def emit (swaptable : List (LuaString × LuaString)) (w : Writer) (s : LuaString) :
    List LuaString × Writer :=
  let thisid := s.head?.any word
  let between := (thisid && w.id) || w.ws || w.nl
  let separator := if between then [[if w.nl || w.breaks then '\n' else ' ']] else []
  let flags := if between then { w with ws := false, nl := false } else w
  let ss := (swaptable.lookup s).getD s
  (separator ++ [ss], { flags with id := ss.getLast?.any word })

def write (swaptable : List (LuaString × LuaString)) : Writer → List Emission → List LuaString
  | _, [] => []
  | w, .emit s :: rest => (emit swaptable w s).1 ++ write swaptable (emit swaptable w s).2 rest
  | w, .emit_nl :: rest => write swaptable { w with nl := true } rest
  | w, .emit_ws :: rest => write swaptable { w with ws := true } rest
  | w, .breaks_on :: rest => write swaptable { w with breaks := true } rest
  | w, .breaks_off :: rest => write swaptable { w with breaks := false } rest

/-- The text on standard output. -/
def written (swaptable : List (LuaString × LuaString)) (emissions : List Emission) : LuaString :=
  (write swaptable Writer.start emissions).flatten ++ ['\n']

/-- `%x` -/
def hex (c : Char) : Bool :=
  c.isDigit || decide ('a' ≤ c ∧ c ≤ 'f') || decide ('A' ≤ c ∧ c ≤ 'F')

/-- `[-()*,;.=<>/?:{}~+&|![%]%%^]` -/
def operator (c : Char) : Bool :=
  ['-', '(', ')', '*', ',', ';', '.', '=', '<', '>', '/', '?', ':', '\x7b', '\x7d', '~', '+', '&',
    '|', '!', '[', ']', '%', '^'].contains c

/-- `^%s*$` -/
def restBlank : List Item := [.star white, .atEnd]

/-- `^/%*.*%*/%s*` -/
def closedComment : List Item :=
  [.one (· == '/'), .one (· == '*'), .star (fun _ => true), .one (· == '*'), .one (· == '/'),
    .star white]

/-- `^/%*` -/
def openComment : List Item := [.one (· == '/'), .one (· == '*')]

/-- The patterns of the pieces besides the literals, in their order. Each captures all that it
matches. -/
def piecePatterns : List (List Item) := [
  -- `^([%u%l_][%w_]*)`
  [.one letter, .star word],
  -- `^(0[xX][%x]+)`
  [.one (· == '0'), .one (fun c => c == 'x' || c == 'X'), .plus hex],
  -- `^(%d+[lLuU]*)`
  [.plus Char.isDigit, .star (fun c => c == 'l' || c == 'L' || c == 'u' || c == 'U')],
  -- `^(%d*%.%d+[eE][-+]?%d+)`
  [.star Char.isDigit, .one (· == '.'), .plus Char.isDigit, .one (fun c => c == 'e' || c == 'E'),
    .opt (fun c => c == '-' || c == '+'), .plus Char.isDigit],
  -- `^(%d*%.%d+)`
  [.star Char.isDigit, .one (· == '.'), .plus Char.isDigit],
  -- `^([-()*,;.=<>/?:{}~+&|![%]%%^])`
  [.one operator]]

/-- How much of a text a pattern matches. -/
def matchLength (items : List Item) (t : LuaString) : Option Nat :=
  (matchItems items t []).map (fun r => t.length - r.1.length)

/-- The first pattern that matches. -/
def firstLength : List (List Item) → LuaString → Option Nat
  | [], _ => none
  | items :: more, t => (matchLength items t).or (firstLength more t)

/-- `[^\sep]` -/
def ordinary (sep c : Char) : Bool := c != '\\' && c != sep

/-- `^([^\sep]*)(.)` -/
def stringPart (sep : Char) : List Item :=
  [.openCapture, .star (ordinary sep), .closeCapture, .openCapture, .one (fun _ => true),
    .closeCapture]

/-- The loop of `process_string`: the texts put into r, and what is left of the line. -/
def stringLoop (sep : Char) : Nat → LuaString → Option (LuaString × LuaString)
  | 0, _ => none
  | fuel + 1, t =>
    match matchItems (stringPart sep) t [] with
    | some (rest, [sc1, sc2]) =>
      if sc2.text = [sep] then some (sc1.text ++ [sep], rest)
      else if sc2.text = ['\\'] then
        (stringLoop sep fuel (rest.drop 1)).map
          (fun r => (sc1.text ++ '\\' :: rest.take 1 ++ r.1, r.2))
      else (stringLoop sep fuel rest).map (fun r => (sc1.text ++ r.1, r.2))
    | _ => none

def processString (s : LuaString) (pos : Nat) (sep : Char) :
    Except Stop (List Emission × Nat × LuaString) :=
  match stringLoop sep (s.length + 1) (s.drop pos) with
  | some (r, rest) => .ok ([.emit (sep :: r)], s.length - rest.length + 1, s)
  | none => .error (luaerror ("unterminated string or character constant in ".toList ++ s))

/-- What stands behind the first match of `%*/`. -/
def afterClose : LuaString → Option LuaString
  | [] => none
  | c :: s => if c == '*' && s.head? == some '/' then some s.tail else afterClose s

/-- The loop that reads lines until one holds the end of the comment. -/
def readComment : List LuaString → Except Stop (Nat × LuaString × List LuaString)
  | [] => .error (luaerror "bad argument #1 to `?' (string expected, got nil)".toList)
  | s :: lines =>
    match afterClose s with
    | some rest => .ok (s.length - rest.length + 1, s, lines)
    | none => readComment lines

/-- What is emitted, the next position, its line and the lines below that. -/
def processToken (lines : List LuaString) (s : LuaString) (pos : Nat) :
    Except Stop (List Emission × Nat × LuaString × List LuaString) :=
  let rest := s.drop (pos - 1)
  if (matchItems restBlank rest []).isSome then .ok ([], s.length + 1, s, lines)
  else
    match matchLength [.plus white] rest with
    | some n => .ok ([], pos + n, s, lines)
    | none =>
      match matchLength closedComment rest with
      | some n => .ok ([], pos + n, s, lines)
      | none =>
        if (matchItems openComment rest []).isSome then
          (readComment lines).map (fun r => ([], r))
        else if rest.head? = some '"' then
          (processString s pos '"').map (fun r => (r.1, r.2.1, r.2.2, lines))
        else if rest.head? = some '\'' then
          (processString s pos '\'').map (fun r => (r.1, r.2.1, r.2.2, lines))
        else
          match firstLength piecePatterns rest with
          | some n => .ok ([.emit (rest.take n)], pos + n, s, lines)
          | none => .error (luaerror ("unrecognised token at ".toList ++ rest))

/-- A run of the coroutine: what it emits, and the lines that are left or the error. -/
abbrev Run := List Emission × Except Stop (List LuaString)

def Run.bind (r : Run) (next : List LuaString → Run) : Run :=
  match r.2 with
  | .ok lines => (r.1 ++ (next lines).1, (next lines).2)
  | .error e => (r.1, .error e)

def processNormalLine : Nat → List LuaString → LuaString → Nat → Run
  | 0, _, _, _ => ([], .error .diverges)
  | fuel + 1, lines, s, pos =>
    if pos ≤ s.length then
      match processToken lines s pos with
      | .ok (emitted, pos, s, lines) =>
        (emitted ++ (processNormalLine fuel lines s pos).1, (processNormalLine fuel lines s pos).2)
      | .error e => ([], .error e)
    else ([], .ok lines)

/-- `^%s*#` -/
def directivePattern : Pattern := ⟨true, [.star white, .one (· == '#')]⟩

/-- The characters of some lines, each with its line break. -/
def size (lines : List LuaString) : Nat := (lines.map (fun s => s.length + 1)).sum

section
variable (directive : List LuaString → LuaString → Run)

/-- `gettoken`, for lines of which the first is the one that is read next. -/
def gettokens : Nat → List LuaString → Run
  | 0, _ => ([], .error .diverges)
  | _ + 1, [] => ([], .ok [])
  | fuel + 1, s :: lines =>
    if (find directivePattern s).isSome then
      let r := directive lines s
      Run.bind (.breaks_off :: r.1, r.2) fun lines =>
        (.breaks_on :: (gettokens fuel lines).1, (gettokens fuel lines).2)
    else Run.bind (processNormalLine (size (s :: lines) + 1) lines s 1) (gettokens fuel)

/-- The whole file, as the lines that `fp:read` gives. -/
def crunch (source : List LuaString) : Run := gettokens directive (source.length + 1) source

end

end PrimeMover.Cruncher
