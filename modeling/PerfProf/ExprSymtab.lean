import PerfProf.ExprCompile
import PerfProf.Intern

/-! The symbol table of the expression compiler as it lies in memory: an array that `next` searches
by hash and by a compare of limited length, and that grows by 16 entries whose contents are those
of the memory `realloc` gives. -/
namespace PerfProf.ExprSymtab
open PerfProf.Expr PerfProf.Intern

section Table

def tokId : Nat := 133
def tokInt : Nat := 134
def tokSizeof : Nat := 135
def classSys : Nat := 130
def classGlo : Nat := 131

/-- The fields of an entry that are set by `expr_compile`. -/
structure Setting where
  token : Nat := 0
  cls : Nat := 0
  type : Nat := 0
  value : Long := 0
deriving DecidableEq

/-- `struct symbol_table`; `name` is the text from the pointer on. -/
structure SymbolEntry extends Setting where
  name : List Char := []
  hash : Long := 0
deriving DecidableEq

/-- An entry that `calloc` has cleared. -/
def SymbolEntry.free : SymbolEntry := {}

structure SymbolTable where
  entries : List SymbolEntry
  nSyms : Nat
deriving DecidableEq

def SymbolTable.nrSyms (tab : SymbolTable) : Nat := tab.entries.length

/-- The table from `calloc`. -/
def SymbolTable.start : SymbolTable := { entries := List.replicate 16 .free, nSyms := 0 }

def isWord (c : Char) : Bool := isAlpha c || isDigit c

/-- The identifier at the start of a text. -/
def spelled (text : List Char) : List Char := text.takeWhile isWord

/-- `HASH(tk, p - pp)`, with `tk` from all characters of the name. -/
def hashOf : List Char → Long
  | [] => 0
  | c :: cs => (cs.foldl (fun tk c => tk * 147 + charLong c) (charLong c)) <<< 6 +
      word (cs.length + 1)

/-- `tk == id->hash && !memcmp(id->name, pp, p - pp)`. -/
def SymbolEntry.accepts (e : SymbolEntry) (name : List Char) : Bool :=
  e.hash == hashOf name && e.name.take name.length == name

/-- What a call of `next` leaves: the index of `id`, and the last index at which a token was read
while the table had `nrSyms` entries. -/
structure Found where
  tab : SymbolTable
  id : Nat
  scanned : Nat
  nrSyms : Nat

/-- A new identifier. -/
def SymbolEntry.named (text : List Char) (e : SymbolEntry) : SymbolEntry :=
  { e with name := text, hash := hashOf (spelled text), token := tokId }

def SymbolTable.add (tab : SymbolTable) (i : Nat) (text : List Char) : SymbolTable where
  entries := tab.entries.modify i (SymbolEntry.named text)
  nSyms := tab.nSyms + 1

def SymbolTable.grow (fresh : Nat → SymbolEntry) (tab : SymbolTable) : SymbolTable where
  entries := tab.entries ++ (List.range 16).map fun k => fresh (tab.nrSyms + k)
  nSyms := tab.nSyms

/-- `next` on an identifier. Its loop stops at an entry without a token or at one that is
accepted, or has passed the last. -/
def SymbolTable.next (fresh : Nat → SymbolEntry) (tab : SymbolTable) (text : List Char) : Found :=
  let i := tab.entries.findIdx fun e => e.token == 0 || e.accepts (spelled text)
  match tab.entries[i]? with
  | none => { tab := (tab.grow fresh).add tab.nSyms text, id := tab.nSyms, scanned := i,
              nrSyms := tab.nrSyms }
  | some e =>
    if e.token = 0 then { tab := tab.add i text, id := i, scanned := i, nrSyms := tab.nrSyms }
    else { tab := tab, id := i, scanned := i, nrSyms := tab.nrSyms }

end Table

section Reads

/-- What `expr_compile` does with the entry of an identifier it has read. -/
inductive Use where
  | int (type : Nat)
  | sizeof
  | lib (type : Nat) (insn : Op)
  | glo (type : Nat) (value : Long)
  | mention

def Use.apply (use : Use) (m : Setting) : Setting :=
  match use with
  | .int type => { token := tokInt, cls := 0, type := type, value := 0 }
  | .sizeof => { token := tokSizeof, cls := 0, type := tyInt, value := 0 }
  | .lib type insn => { m with cls := classSys, type := type, value := insn.word }
  | .glo type value => { m with cls := classGlo, type := type, value := value }
  | .mention => m

/-- A text that starts with an identifier. -/
structure Ident where
  text : List Char
  alpha : text.head?.any isAlpha = true

def Ident.name (x : Ident) : List Char := spelled x.text

structure Read where
  ident : Ident
  use : Use

structure Visit where
  name : List Char
  id : Nat
  scanned : Nat
  nrSyms : Nat
  setting : Setting

def Use.on (use : Use) (e : SymbolEntry) : SymbolEntry :=
  { e with toSetting := use.apply e.toSetting }

def SymbolTable.set (tab : SymbolTable) (i : Nat) (use : Use) : SymbolTable where
  entries := tab.entries.modify i use.on
  nSyms := tab.nSyms

def SymbolTable.read (fresh : Nat → SymbolEntry) (tab : SymbolTable) (r : Read) :
    SymbolTable × Visit :=
  let found := tab.next fresh r.ident.text
  let tab := found.tab.set found.id r.use
  (tab, { name := r.ident.name
          id := found.id
          scanned := found.scanned
          nrSyms := found.nrSyms
          setting := (tab.entries.getD found.id .free).toSetting })

def SymbolTable.after (fresh : Nat → SymbolEntry) (tab : SymbolTable) : List Read → SymbolTable
  | [] => tab
  | r :: rs => (tab.read fresh r).1.after fresh rs

def SymbolTable.trace (fresh : Nat → SymbolEntry) (tab : SymbolTable) : List Read → List Visit
  | [] => []
  | r :: rs => (tab.read fresh r).2 :: (tab.read fresh r).1.trace fresh rs

def builtinReads : List Read :=
  [⟨⟨"char".toList, rfl⟩, .int 0⟩, ⟨⟨"short".toList, rfl⟩, .int tyShort⟩,
    ⟨⟨"int".toList, rfl⟩, .int tyInt⟩, ⟨⟨"long".toList, rfl⟩, .int 3⟩,
    ⟨⟨"sizeof".toList, rfl⟩, .sizeof⟩,
    ⟨⟨"printf".toList, rfl⟩, .lib tyInt .prtf⟩, ⟨⟨"ksymbol".toList, rfl⟩, .lib (0 ||| ptr) .ksym⟩,
    ⟨⟨"ntohl".toList, rfl⟩, .lib tyInt .nthl⟩, ⟨⟨"ntohs".toList, rfl⟩, .lib tyShort .nths⟩,
    ⟨⟨"strncmp".toList, rfl⟩, .lib tyInt .strncmp⟩]

/-- A declared name with the type and the value it gets. -/
structure Declared where
  ident : Ident
  type : Nat
  value : Long

/-- The identifiers in the order in which `expr_compile` reads them; the declarations may be read
several times. -/
def compileReads (declared : List Declared) (mentions : List Ident) : List Read :=
  builtinReads ++ declared.map (fun d => ⟨d.ident, .glo d.type d.value⟩) ++
    mentions.map fun x => ⟨x, .mention⟩

end Reads

end PerfProf.ExprSymtab
