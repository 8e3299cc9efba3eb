import TreeSketch.Settings.Value

/-!
# Tables under construction

While a settings file is read, its tables are filled from several places: under headers, through dotted keys,
and inside braces. A table may be filled in one way only, so `Table` remembers how it came to be, and
`Table.update?` goes down a path of keys only where that is allowed.
-/

namespace TreeSketch.Toml

mutual

/-- What stands behind a key. -/
inductive Item where
  | value (value : Setting)
  | table (table : Table)
  /-- The tables of a header in double brackets; there is at least one. -/
  | tables (tables : List Table)

/-- A table and how it came to be. -/
inductive Table where
  /-- The table is `implicit` if only keys or headers behind it have brought it about, and `dotted` if dotted
  keys have. -/
  | mk (isImplicit dotted : Bool) (fields : List (String × Item))

end

namespace Table

/-- The table exists only because of what stands in it. -/
def isImplicit : Table → Bool
  | mk isImplicit _ _ => isImplicit

/-- The table was brought about by dotted keys. -/
def dotted : Table → Bool
  | mk _ dotted _ => dotted

/-- The keys and what stands behind them. -/
def fields : Table → List (String × Item)
  | mk _ _ fields => fields

/-- The table of a header, or of braces, without fields. -/
def empty : Table :=
  mk false false []

/-- Puts an item behind a key. -/
def put (key : String) (item : Item) : Table → Table
  | mk isImplicit dotted fields =>
    mk isImplicit dotted (fields.filter (·.1 ≠ key) ++ [(key, item)])

/-- What stands behind a key. -/
def get? (key : String) (table : Table) : Option Item :=
  table.fields.lookup key

/-- Changes the table at the end of a path of keys. Tables that are missing on the way are brought about,
and of several tables of one header the last is meant. Dotted keys do not go into a table that a header has
brought about. -/
def update? (byDots : Bool) (change : Table → Option Table) : List String → Table → Option Table
  | [], table => change table
  | key :: path, table =>
    match table.get? key with
    | none => (update? byDots change path (mk true byDots [])).map fun below =>
        table.put key (.table below)
    | some (.value _) => none
    | some (.table below) =>
      if byDots && !below.isImplicit then none
      else (update? byDots change path below).map fun below => table.put key (.table below)
    | some (.tables tables) =>
      match tables.getLast? with
      | none => none
      | some last => (update? byDots change path last).map fun last =>
          table.put key (.tables (tables.dropLast ++ [last]))

/-- Puts a value behind a dotted key. No key is used twice, and dots add nothing to a table of a header. -/
def define? (path : List String) (key : String) (value : Setting) (table : Table) : Option Table :=
  table.update? true (fun below =>
    if below.dotted = path.isEmpty || (below.get? key).isSome then none
    else some (below.put key (.value value))) path

/-- Opens the table of a header. It may exist already if only headers of tables in it have brought it
about. -/
def openTable? (path : List String) (key : String) (table : Table) : Option Table :=
  table.update? false (fun below =>
    match below.get? key with
    | none => some (below.put key (.table empty))
    | some (.table (mk true false fields)) => some (below.put key (.table (mk false false fields)))
    | some _ => none) path

/-- Opens one more table of a header in double brackets. -/
def openItem? (path : List String) (key : String) (table : Table) : Option Table :=
  table.update? false (fun below =>
    match below.get? key with
    | none => some (below.put key (.tables [empty]))
    | some (.tables tables) => some (below.put key (.tables (tables ++ [empty])))
    | some _ => none) path

end Table

mutual

/-- The setting that an item stands for. -/
def Item.toSetting (origin : Option String) : Item → Setting
  | .value value => value
  | .table table => .table origin (Table.toFields origin table)
  | .tables tables => .array origin (Table.toSettings origin tables)

/-- The fields of a table as settings. -/
def Table.toFields (origin : Option String) : Table → List (String × Setting)
  | .mk _ _ fields => Item.toSettings origin fields

/-- Several tables as settings. -/
def Table.toSettings (origin : Option String) : List Table → List Setting
  | [] => []
  | table :: rest => .table origin (Table.toFields origin table) :: Table.toSettings origin rest

/-- Several fields as settings. -/
def Item.toSettings (origin : Option String) : List (String × Item) → List (String × Setting)
  | [] => []
  | (key, item) :: rest => (key, Item.toSetting origin item) :: Item.toSettings origin rest

end

end TreeSketch.Toml
