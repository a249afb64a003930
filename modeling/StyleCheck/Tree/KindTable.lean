import StyleCheck.Fault
import StyleCheck.Tree.Kind

/-!
# Tables of kinds

Nodes, types and tokens have tables of kinds. An id is looked up as an offset into its table, so
that negative ids count from the end of it; the table ends at the highest id in use.
-/

namespace StyleCheck

/-- A table of kinds: its title, its ids and names, and what comes of an id that has no kind. A
table without that answer cannot be asked for ids, and lets an id be claimed twice. -/
structure KindTable where
  title : String
  entries : List (Nat × String)
  unknown : Option (Int → Fault)

namespace KindTable

/-- One more than the highest id. -/
def length (t : KindTable) : Nat := t.entries.foldl (fun n e => max n (e.1 + 1)) 0

/-- The place of an id in a table of this length. -/
def slot (length : Nat) (id : Int) : Option Nat :=
  if 0 ≤ id then some id.toNat
  else if 0 ≤ id + length then some (id + length).toNat
  else none

/-- The kind at an id. -/
def ofId (t : KindTable) (id : Int) : Except Fault (Nat × String) :=
  match t.unknown, slot t.length id with
  | none, _ => .error (.noKindNamed t.title "from_id")
  | some _, none => .error .entryOutOfRange
  | some unknown, some n =>
    match t.entries.find? (fun e => e.1 == n) with
    | some e => .ok e
    | none => .error (unknown id)

/-- The kind of a name. -/
def ofName (t : KindTable) (name : String) : Except Fault (Nat × String) :=
  match t.entries.find? (fun e => e.2 == name) with
  | some e => .ok e
  | none => .error (.noKindNamed t.title name)

/-- Claims an id that is in use for a second kind. -/
def claim (t : KindTable) (id : Int) : Except Fault (Nat × String) :=
  match t.unknown, t.entries.find? (fun e => (e.1 : Int) == id) with
  | none, some e => .ok e
  | _, _ => .error (.kindTaken t.title)

/-- How a kind of this table is written. -/
def qualified (t : KindTable) (e : Nat × String) : String := t.title ++ "." ++ e.2

/-- The kinds of nodes. -/
def nodes : KindTable where
  title := "CursorKind"
  entries := Kind.all.map (fun k => (k.id, k.name))
  unknown := some fun _ => .unknownNodeKind

/-- The kinds of types. -/
def types : KindTable where
  title := "TypeKind"
  entries :=
    [(0, "INVALID"), (1, "UNEXPOSED"), (2, "VOID"), (3, "BOOL"), (4, "CHAR_U"), (5, "UCHAR"),
     (6, "CHAR16"), (7, "CHAR32"), (8, "USHORT"), (9, "UINT"), (10, "ULONG"), (11, "ULONGLONG"),
     (12, "UINT128"), (13, "CHAR_S"), (14, "SCHAR"), (15, "WCHAR"), (16, "SHORT"), (17, "INT"),
     (18, "LONG"), (19, "LONGLONG"), (20, "INT128"), (21, "FLOAT"), (22, "DOUBLE"),
     (23, "LONGDOUBLE"), (24, "NULLPTR"), (25, "OVERLOAD"), (26, "DEPENDENT"), (27, "OBJCID"),
     (28, "OBJCCLASS"), (29, "OBJCSEL"), (100, "COMPLEX"), (101, "POINTER"),
     (102, "BLOCKPOINTER"), (103, "LVALUEREFERENCE"), (104, "RVALUEREFERENCE"), (105, "RECORD"),
     (106, "ENUM"), (107, "TYPEDEF"), (108, "OBJCINTERFACE"), (109, "OBJCOBJECTPOINTER"),
     (110, "FUNCTIONNOPROTO"), (111, "FUNCTIONPROTO"), (112, "CONSTANTARRAY")]
  unknown := some .unknownTypeKind

/-- The kinds of tokens. -/
def tokens : KindTable where
  title := "TokenKind"
  entries := [(0, "PUNCTUATION"), (1, "KEYWORD"), (2, "IDENTIFIER"), (3, "LITERAL"), (4, "COMMENT")]
  unknown := none

end KindTable

namespace Kind

/-- The length of the table of kinds. -/
def tableLength : Nat := 504

/-- The kind of a node that refers to it by id. -/
def ofId (id : Int) : Except Fault Kind :=
  match KindTable.slot tableLength id with
  | none => .error .entryOutOfRange
  | some n =>
    match all.find? (fun k => k.id == n) with
    | some k => .ok k
    | none => .error .unknownNodeKind

/-- The kind of a node that refers to it by name. -/
def ofName (name : String) : Except Fault Kind :=
  match all.find? (fun k => k.name == name) with
  | some k => .ok k
  | none => .error (.noKindNamed "CursorKind" name)

end Kind

end StyleCheck
