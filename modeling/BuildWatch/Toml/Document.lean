import BuildWatch.Toml.Scalar

namespace BuildWatch.Toml

/-- How a table came about: from its own header or from a longer one, from a key with dots, or from
a value in braces. It decides what may be added to it later on. A table from a longer header counts
as one from a key with dots as soon as such a key leads to it. -/
inductive TableKind where
  | header
  | implicit
  | dotted
  | inline
  deriving DecidableEq, Repr

/-- A value of a document. A list of tables that headers have made can be extended, and holds the
newest table first. -/
inductive Node where
  | scalar (value : Scalar)
  | string (text : String)
  | list (items : List Node)
  | tables (items : List Node)
  | table (kind : TableKind) (entries : List (String × Node))

abbrev Entries := List (String × Node)

structure Table where
  kind : TableKind
  entries : Entries

def Table.node (t : Table) : Node := .table t.kind t.entries

def alterEntry (name : String) (f : Option Node → Option Node) : Entries → Option Entries
  | [] => (f none).map fun node => [(name, node)]
  | (n, node) :: entries =>
    if n = name then (f (some node)).map fun node => (n, node) :: entries
    else (alterEntry name f entries).map ((n, node) :: ·)

/-- Change the table that a key leads to, making the ones on the way. Tables in braces cannot be
entered, and a key with dots cannot enter a table with a header of its own. -/
def alterAt (dotted : Bool) (f : Table → Option Table) : List String → Table → Option Table
  | [], t => f t
  | name :: names, t =>
    let enter : Node → Option Node
      | .table kind entries =>
        if kind = .inline ∨ (dotted ∧ kind = .header) then none
        else
          let kind := if dotted then .dotted else kind
          (alterAt dotted f names ⟨kind, entries⟩).map Table.node
      | _ => none
    let change : Option Node → Option Node
      | none =>
        let kind := if dotted then .dotted else .implicit
        (alterAt dotted f names ⟨kind, []⟩).map Table.node
      | some (.tables (.table kind entries :: older)) =>
        (alterAt dotted f names ⟨kind, entries⟩).map fun newest => .tables (newest.node :: older)
      | some node => enter node
    (alterEntry name change t.entries).map fun entries => { t with entries }

def split (key : List String) : Option (List String × String) :=
  key.getLast?.map fun name => (key.dropLast, name)

/-- Give a key a value for the first time. What a key with dots is added to must come from such keys
alone, and what a plain key is added to must not. -/
def assign (key : List String) (value : Node) (t : Table) : Option Table :=
  (split key).bind fun (path, name) =>
    alterAt true (fun t =>
      if decide (t.kind = .dotted) = path.isEmpty then none
      else
        (alterEntry name (fun
          | none => some value
          | some _ => none) t.entries).map fun entries => { t with entries }) path t

/-- Begin the table of a header. Only one that longer headers have made may be there already. -/
def openTable (key : List String) (t : Table) : Option Table :=
  (split key).bind fun (path, name) =>
    alterAt false (fun t =>
      (alterEntry name (fun
        | none => some (.table .header [])
        | some (.table .implicit entries) => some (.table .header entries)
        | some _ => none) t.entries).map fun entries => { t with entries }) path t

def openListed (key : List String) (t : Table) : Option Table :=
  (split key).bind fun (path, name) =>
    alterAt false (fun t =>
      (alterEntry name (fun
        | none => some (.tables [.table .header []])
        | some (.tables items) => some (.tables (.table .header [] :: items))
        | some _ => none) t.entries).map fun entries => { t with entries }) path t

inductive Statement where
  | header (key : List String)
  | listed (key : List String)
  | assignment (key : List String) (value : Node)

def build (path : List String) (t : Table) : List Statement → Option Table
  | [] => some t
  | .header key :: rest => (openTable key t).bind fun t => build key t rest
  | .listed key :: rest => (openListed key t).bind fun t => build key t rest
  | .assignment key value :: rest =>
    (alterAt false (assign key value) path t).bind fun t => build path t rest

end BuildWatch.Toml
