import SoftTyping.Identifier
import SoftTyping.SymbolTable.Lookup
import SoftTyping.Text.Description

/-!
# Resolving identifiers

A resolver is one way to find the symbol that an identifier names. A list of resolvers is asked in order, and the first
one that finds a symbol decides. An identifier may go through an alias of its namespace block; that is reported also when
the alias leads nowhere.
-/

namespace SoftTyping

open Text

/-- What resolving an identifier gives. -/
structure Resolution where
  symbol : Option SymbolId := none
  /-- The alias through which the identifier went. -/
  throughAlias : Option SymbolId := none
  /-- The alias is declared behind the identifier. -/
  aliasIsForward : Bool := false
deriving DecidableEq, Inhabited

/-- Nothing was found. -/
def Resolution.nothing : Resolution := {}

/-- A way to find the symbol that an identifier names. Whoever drives the analysis may have some of their own. -/
structure Resolver where
  name : String
  resolve : SymbolTable → Identifier → Except Fault Resolution

namespace Resolver

/-- Where a resolver looks for an identifier, by the form of its name. -/
structure Places where
  /-- Where a local name is looked for first. -/
  near : SymbolTable → Identifier → Except Fault Resolution
  /-- Where a local name is looked for that was not found near. -/
  fallback : SymbolTable → Identifier → Except Fault Resolution := fun _ _ => .ok .nothing
  absolute : SymbolTable → Identifier → Except Fault Resolution := fun _ _ => .ok .nothing
  relative : SymbolTable → Identifier → Except Fault Resolution := fun _ _ => .ok .nothing

/-- What is found of an identifier where its form asks to look for it. -/
def Places.find (places : Places) (table : SymbolTable) (identifier : Identifier) : Except Fault Resolution :=
  match identifier.form with
  | .absolute => places.absolute table identifier
  | .relative => places.relative table identifier
  | .unqualified => do
    let found ← places.near table identifier
    if found.symbol.isSome then .ok found else places.fallback table identifier

/-- The first declaration of a scope that fits the identifier under a name. -/
def lookup (table : SymbolTable) (identifier : Identifier) (scope : ScopeId) (name : String) : Except Fault Resolution := do
  .ok { symbol := ← table.find? scope name identifier.rule identifier.kind.accepts }

/-! ## Declarations of the program -/

/-- What an absolute name stands for: the declaration of its last segment in the namespace of its path. -/
def userAbsolute (table : SymbolTable) (identifier : Identifier) (name : String) : Except Fault Resolution :=
  match splitLast? name with
  | none => .ok .nothing
  | some (path, last) =>
    match table.findNamespace? path with
    | none => .ok .nothing
    | some scope => lookup table identifier scope last

/-- What an identifier stands for when its first segment is an alias; `rest` is what is written behind that segment. -/
def throughAlias (table : SymbolTable) (identifier : Identifier) (id : SymbolId) (rest : Option String) :
    Except Fault Resolution := do
  let symbol ← table.symbol id
  match symbol.aliasTarget? with
  | none => .ok .nothing
  | some target =>
    let name := match rest with
      | some rest => target ++ separator.toString ++ rest
      | none => target
    let found ← userAbsolute table identifier name
    .ok {
      symbol := found.symbol
      throughAlias := some id
      aliasIsForward := identifier.position.isBefore symbol.position }

/-- Whether an alias hides a declaration of the same name: only if it stands before it, in another namespace block. -/
def hides (table : SymbolTable) (use declaration : SymbolId) : Except Fault Bool := do
  let use ← table.symbol use
  let declaration ← table.symbol declaration
  .ok (use.position.isBefore declaration.position && use.scope != declaration.scope)

/-- What a local name stands for where it occurs: a variable of the function or namespace block, or a declaration of the
namespace; a type may also be an alias. -/
def userLocal (table : SymbolTable) (identifier : Identifier) : Except Fault Resolution := do
  if identifier.kind = .var then
    lookup table identifier (← table.variableScope identifier.scope) identifier.name
  else
    let block ← table.enclosingNamespace identifier.scope
    let declared ← lookup table identifier block identifier.name
    if identifier.kind != .type then
      .ok declared
    else
      match ← table.useNamed? block identifier.name, declared.symbol with
      | none, _ => .ok declared
      | some use, none => throughAlias table identifier use none
      | some use, some declaration =>
        if ← hides table use declaration then throughAlias table identifier use none else .ok declared

/-- What a local name other than a type's stands for in the default namespace, where it is looked for last. -/
def userFallback (table : SymbolTable) (identifier : Identifier) : Except Fault Resolution := do
  if identifier.kind = .type then
    .ok .nothing
  else if (← table.storageScope identifier.scope) = table.defaultNamespace then
    .ok .nothing
  else
    lookup table identifier table.defaultNamespace identifier.name

/-- What a relative name stands for: its first segment is an alias, or the name continues the path of the namespace. -/
def userRelative (table : SymbolTable) (identifier : Identifier) : Except Fault Resolution := do
  let block ← table.enclosingNamespace identifier.scope
  let use ← match splitHead? identifier.name with
    | some (head, rest) => do .ok ((← table.useNamed? block head).map fun use => (use, rest))
    | none => .ok none
  match use with
  | some (use, rest) => throughAlias table identifier use (some rest)
  | none => userAbsolute table identifier (← table.absoluteName block identifier.name)

/-- The declarations of the program, with its namespaces and aliases. -/
def user : Resolver where
  name := "user"
  resolve := Places.find {
    near := userLocal
    fallback := userFallback
    absolute := fun table identifier => userAbsolute table identifier identifier.name
    relative := userRelative }

/-! ## Built-ins -/

/-- What an identifier stands for among the variables that are visible everywhere. -/
def superGlobal (table : SymbolTable) (identifier : Identifier) : Except Fault Resolution :=
  if identifier.kind = .var then lookup table identifier table.superGlobalScope identifier.name else .ok .nothing

/-- The variables that are visible everywhere. -/
def superGlobals : Resolver where
  name := "super-global"
  resolve := Places.find { near := superGlobal }

/-- What an identifier stands for among the built-ins under a name. -/
def coreLocal (table : SymbolTable) (identifier : Identifier) (name : String) : Except Fault Resolution :=
  if identifier.kind = .var then .ok .nothing else lookup table identifier table.coreScope name

/-- What an absolute name stands for among the built-ins: only a rooted one names a built-in. -/
def coreAbsolute (table : SymbolTable) (identifier : Identifier) : Except Fault Resolution :=
  match rootedLocal? identifier.name with
  | some name => coreLocal table identifier name
  | none => .ok .nothing

/-- The built-in types, constants and functions. -/
def core : Resolver where
  name := "core"
  resolve := Places.find {
    near := fun table identifier => coreLocal table identifier identifier.name
    absolute := coreAbsolute }

/-- The resolvers that every analysis has. -/
def standard : List Resolver := [user, superGlobals, core]

/-! ## Asking resolvers -/

/-- What the first resolver that finds a symbol finds; if none does, the last resolution that went through an alias. -/
def resolveFirst (table : SymbolTable) (identifier : Identifier) : List Resolver → Resolution → Except Fault Resolution
  | [], last => .ok last
  | resolver :: rest, last => do
    let found ← resolver.resolve table identifier
    if found.symbol.isSome then .ok found
    else resolveFirst table identifier rest (if found.throughAlias.isSome then found else last)

/-- What an identifier stands for. -/
def resolveAll (resolvers : List Resolver) (table : SymbolTable) (identifier : Identifier) : Except Fault Resolution :=
  resolveFirst table identifier resolvers .nothing

/-- The text that describes a list of resolvers. -/
def describe (resolvers : List Resolver) : String :=
  describeRecord "ResolverChain" [("resolvers", describeList (resolvers.map fun resolver => quoted resolver.name))]

end Resolver

end SoftTyping
