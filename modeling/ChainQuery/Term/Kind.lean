/-! # Kinds of term — what an operation node does

    Every operation the remote engine knows has a wire tag that never
    changes and a name.  The kinds are listed in tag order, and that is
    how they compare. -/

namespace ChainQuery.Term

/-- The kind of a term node; `datum` is the kind of every leaf. -/
inductive Kind where
  | datum | makeArray | makeObj | var | db | table | get | eq | ne
  | lt | le | gt | ge | not | add | sub | mul | div | mod | append
  | slice | getField | hasFields | between | reduce | map | filter
  | concatMap | orderBy | distinct | count | union | nth
  | groupedMapReduce | groupBy | innerJoin | outerJoin | eqJoin
  | coerceTo | typeOf | update | delete | replace | insert | dbCreate
  | dbDrop | dbList | tableCreate | tableDrop | tableList | or | and
  | func | skip | limit | zip | asc | desc | indexCreate | indexDrop
  | indexList | getAll | default | contains | keys | matchText | now
  | upcase | downcase
  deriving DecidableEq, Repr, Inhabited

namespace Kind

/-- All kinds, in tag order. -/
def all : List Kind :=
  [.datum, .makeArray, .makeObj, .var, .db, .table, .get, .eq, .ne,
   .lt, .le, .gt, .ge, .not, .add, .sub, .mul, .div, .mod, .append,
   .slice, .getField, .hasFields, .between, .reduce, .map, .filter,
   .concatMap, .orderBy, .distinct, .count, .union, .nth,
   .groupedMapReduce, .groupBy, .innerJoin, .outerJoin, .eqJoin,
   .coerceTo, .typeOf, .update, .delete, .replace, .insert, .dbCreate,
   .dbDrop, .dbList, .tableCreate, .tableDrop, .tableList, .or, .and,
   .func, .skip, .limit, .zip, .asc, .desc, .indexCreate, .indexDrop,
   .indexList, .getAll, .default, .contains, .keys, .matchText, .now,
   .upcase, .downcase]

/-- The wire tag. -/
def tag : Kind → Nat
  | .datum => 1
  | .makeArray => 2
  | .makeObj => 3
  | .var => 10
  | .db => 14
  | .table => 15
  | .get => 16
  | .eq => 17
  | .ne => 18
  | .lt => 19
  | .le => 20
  | .gt => 21
  | .ge => 22
  | .not => 23
  | .add => 24
  | .sub => 25
  | .mul => 26
  | .div => 27
  | .mod => 28
  | .append => 29
  | .slice => 30
  | .getField => 31
  | .hasFields => 32
  | .between => 36
  | .reduce => 37
  | .map => 38
  | .filter => 39
  | .concatMap => 40
  | .orderBy => 41
  | .distinct => 42
  | .count => 43
  | .union => 44
  | .nth => 45
  | .groupedMapReduce => 46
  | .groupBy => 47
  | .innerJoin => 48
  | .outerJoin => 49
  | .eqJoin => 50
  | .coerceTo => 51
  | .typeOf => 52
  | .update => 53
  | .delete => 54
  | .replace => 55
  | .insert => 56
  | .dbCreate => 57
  | .dbDrop => 58
  | .dbList => 59
  | .tableCreate => 60
  | .tableDrop => 61
  | .tableList => 62
  | .or => 66
  | .and => 67
  | .func => 69
  | .skip => 70
  | .limit => 71
  | .zip => 72
  | .asc => 73
  | .desc => 74
  | .indexCreate => 75
  | .indexDrop => 76
  | .indexList => 77
  | .getAll => 78
  | .default => 92
  | .contains => 93
  | .keys => 94
  | .matchText => 97
  | .now => 103
  | .upcase => 141
  | .downcase => 142

/-- The name of a kind. -/
def name : Kind → String
  | .datum => "Datum"
  | .makeArray => "MakeArray"
  | .makeObj => "MakeObj"
  | .var => "Var"
  | .db => "Db"
  | .table => "Table"
  | .get => "Get"
  | .eq => "Eq"
  | .ne => "Ne"
  | .lt => "Lt"
  | .le => "Le"
  | .gt => "Gt"
  | .ge => "Ge"
  | .not => "Not"
  | .add => "Add"
  | .sub => "Sub"
  | .mul => "Mul"
  | .div => "Div"
  | .mod => "Mod"
  | .append => "Append"
  | .slice => "Slice"
  | .getField => "GetField"
  | .hasFields => "HasFields"
  | .between => "Between"
  | .reduce => "Reduce"
  | .map => "Map"
  | .filter => "Filter"
  | .concatMap => "ConcatMap"
  | .orderBy => "OrderBy"
  | .distinct => "Distinct"
  | .count => "Count"
  | .union => "Union"
  | .nth => "Nth"
  | .groupedMapReduce => "GroupedMapReduce"
  | .groupBy => "GroupBy"
  | .innerJoin => "InnerJoin"
  | .outerJoin => "OuterJoin"
  | .eqJoin => "EqJoin"
  | .coerceTo => "CoerceTo"
  | .typeOf => "TypeOf"
  | .update => "Update"
  | .delete => "Delete"
  | .replace => "Replace"
  | .insert => "Insert"
  | .dbCreate => "DbCreate"
  | .dbDrop => "DbDrop"
  | .dbList => "DbList"
  | .tableCreate => "TableCreate"
  | .tableDrop => "TableDrop"
  | .tableList => "TableList"
  | .or => "Or"
  | .and => "And"
  | .func => "Func"
  | .skip => "Skip"
  | .limit => "Limit"
  | .zip => "Zip"
  | .asc => "Asc"
  | .desc => "Desc"
  | .indexCreate => "IndexCreate"
  | .indexDrop => "IndexDrop"
  | .indexList => "IndexList"
  | .getAll => "GetAll"
  | .default => "Default"
  | .contains => "Contains"
  | .keys => "Keys"
  | .matchText => "Match"
  | .now => "Now"
  | .upcase => "Upcase"
  | .downcase => "Downcase"

/-- The kind with a given name. -/
def ofName? (name : String) : Option Kind :=
  all.find? (·.name == name)

/-- Kinds in tag order, equal ones kept as they stood. -/
def sort (kinds : List Kind) : List Kind :=
  kinds.mergeSort fun a b => a.tag ≤ b.tag

end Kind

end ChainQuery.Term
