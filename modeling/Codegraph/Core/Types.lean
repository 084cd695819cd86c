import Mathlib.Logic.Basic

/- This file holds the nodes, the edges, and the references that an extraction reports. -/

namespace Codegraph.Core

inductive EdgeKind where
  | contains
  | calls
  | imports
  | exports
  | extends_
  | implements
  | references
  | typeOf
  | returns
  | instantiates
  | overrides
  | decorates
  deriving DecidableEq

def EdgeKind.asStr : EdgeKind → String
  | .contains => "contains"
  | .calls => "calls"
  | .imports => "imports"
  | .exports => "exports"
  | .extends_ => "extends"
  | .implements => "implements"
  | .references => "references"
  | .typeOf => "type_of"
  | .returns => "returns"
  | .instantiates => "instantiates"
  | .overrides => "overrides"
  | .decorates => "decorates"

def EdgeKind.all : List EdgeKind :=
  [.contains, .calls, .imports, .exports, .extends_, .implements, .references, .typeOf, .returns,
    .instantiates, .overrides, .decorates]

inductive NodeKind where
  | file
  | module
  | class_
  | struct
  | interface
  | trait
  | protocol
  | function
  | method
  | property
  | field
  | variable_
  | constant
  | enum
  | enumMember
  | typeAlias
  | namespace_
  | parameter
  | import_
  | export_
  | route
  | component
  | union
  deriving DecidableEq

def NodeKind.asStr : NodeKind → String
  | .file => "file"
  | .module => "module"
  | .class_ => "class"
  | .struct => "struct"
  | .interface => "interface"
  | .trait => "trait"
  | .protocol => "protocol"
  | .function => "function"
  | .method => "method"
  | .property => "property"
  | .field => "field"
  | .variable_ => "variable"
  | .constant => "constant"
  | .enum => "enum"
  | .enumMember => "enum_member"
  | .typeAlias => "type_alias"
  | .namespace_ => "namespace"
  | .parameter => "parameter"
  | .import_ => "import"
  | .export_ => "export"
  | .route => "route"
  | .component => "component"
  | .union => "union"

def NodeKind.all : List NodeKind :=
  [.file, .module, .class_, .struct, .interface, .trait, .protocol, .function, .method, .property, .field, .variable_,
    .constant, .enum, .enumMember, .typeAlias, .namespace_, .parameter, .import_, .export_, .route, .component, .union]

inductive Language where
  | typeScript
  | javaScript
  | tsx
  | jsx
  | arkTs
  | python
  | go
  | rust
  | java
  | c
  | cpp
  | cSharp
  | razor
  | php
  | ruby
  | swift
  | kotlin
  | dart
  | svelte
  | vue
  | astro
  | liquid
  | pascal
  | scala
  | lua
  | luau
  | objC
  | r
  | solidity
  | nix
  | terraform
  | erlang
  | cfml
  | yaml
  | twig
  | xml
  | properties
  | gdscript
  | godotScene
  | godotResource
  | godotProject
  | unknown
  deriving DecidableEq

def Language.asStr : Language → String
  | .typeScript => "typescript"
  | .javaScript => "javascript"
  | .tsx => "tsx"
  | .jsx => "jsx"
  | .arkTs => "arkts"
  | .python => "python"
  | .go => "go"
  | .rust => "rust"
  | .java => "java"
  | .c => "c"
  | .cpp => "cpp"
  | .cSharp => "csharp"
  | .razor => "razor"
  | .php => "php"
  | .ruby => "ruby"
  | .swift => "swift"
  | .kotlin => "kotlin"
  | .dart => "dart"
  | .svelte => "svelte"
  | .vue => "vue"
  | .astro => "astro"
  | .liquid => "liquid"
  | .pascal => "pascal"
  | .scala => "scala"
  | .lua => "lua"
  | .luau => "luau"
  | .objC => "objc"
  | .r => "r"
  | .solidity => "solidity"
  | .nix => "nix"
  | .terraform => "terraform"
  | .erlang => "erlang"
  | .cfml => "cfml"
  | .yaml => "yaml"
  | .twig => "twig"
  | .xml => "xml"
  | .properties => "properties"
  | .gdscript => "gdscript"
  | .godotScene => "godot_scene"
  | .godotResource => "godot_resource"
  | .godotProject => "godot_project"
  | .unknown => "unknown"

def Language.all : List Language :=
  [.typeScript, .javaScript, .tsx, .jsx, .arkTs, .python, .go, .rust, .java, .c, .cpp, .cSharp, .razor, .php,
    .ruby, .swift, .kotlin, .dart, .svelte, .vue, .astro, .liquid, .pascal, .scala, .lua, .luau, .objC, .r,
    .solidity, .nix, .terraform, .erlang, .cfml, .yaml, .twig, .xml, .properties, .gdscript, .godotScene,
    .godotResource, .godotProject, .unknown]

inductive ReferenceSubkind where
  | scriptAttach
  | sceneInstance
  | extResource
  | groupMember
  | signalMethod
  | gdscriptLoadPath
  | autoload
  deriving DecidableEq

def ReferenceSubkind.asStr : ReferenceSubkind → String
  | .scriptAttach => "script_attach"
  | .sceneInstance => "scene_instance"
  | .extResource => "ext_resource"
  | .groupMember => "group_member"
  | .signalMethod => "signal_method"
  | .gdscriptLoadPath => "gdscript_load_path"
  | .autoload => "autoload"

def ReferenceSubkind.all : List ReferenceSubkind :=
  [.scriptAttach, .sceneInstance, .extResource, .groupMember, .signalMethod, .gdscriptLoadPath, .autoload]

/-- A symbol has an identity, a place in one file, and what its declaration says. -/
structure Node where
  id : String
  kind : NodeKind
  name : String
  qualifiedName : String
  filePath : String
  language : Language
  startLine : Int
  endLine : Int
  startColumn : Int
  endColumn : Int
  docstring : Option String
  signature : Option String
  visibility : Option String
  isExported : Bool
  isAsync : Bool
  isStatic : Bool
  isAbstract : Bool
  decorators : List String
  typeParameters : List String
  returnType : Option String
  updatedAt : Int
  deriving DecidableEq

/-- An edge is one row between two node ids, and its metadata is a JSON text. -/
structure Edge where
  id : Option Int
  source : String
  target : String
  kind : EdgeKind
  metadata : Option String
  line : Option Int
  col : Option Int
  provenance : Option String
  deriving DecidableEq

/-- A reference keeps its source node, its coordinate, and what its name resolves against. -/
structure UnresolvedRef where
  id : Option Int
  fromNodeId : String
  referenceName : String
  referenceKind : EdgeKind
  line : Int
  col : Int
  candidates : Option (List String)
  filePath : String
  language : Language
  isFunctionRef : Bool
  referenceSubkind : Option ReferenceSubkind
  deriving DecidableEq

/-- A stored text names the kind that writes it, if any does. -/
def edgeKindNamed (text : String) : Option EdgeKind := EdgeKind.all.find? (fun kind => kind.asStr = text)

def parseLanguage (text : String) : Option Language :=
  Language.all.find? (fun language => language.asStr = text)

def subkindNamed (text : String) : Option ReferenceSubkind :=
  ReferenceSubkind.all.find? (fun subkind => subkind.asStr = text)

theorem edgeKindNamed_asStr (kind : EdgeKind) : edgeKindNamed kind.asStr = some kind := by
  cases kind <;> rfl

theorem parseLanguage_asStr (language : Language) : parseLanguage language.asStr = some language := by
  cases language <;> rfl

theorem subkindNamed_asStr (subkind : ReferenceSubkind) : subkindNamed subkind.asStr = some subkind := by
  cases subkind <;> rfl

/-- No edge kind is written as a function reference. -/
theorem asStr_ne_functionRef (kind : EdgeKind) : kind.asStr ≠ "function_ref" := by
  cases kind <;> decide

end Codegraph.Core
