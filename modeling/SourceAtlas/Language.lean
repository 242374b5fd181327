import SourceAtlas.Path
/-!
The source languages: how their files are named, which node kinds define and call things, and which
call names say nothing about a program.
-/

namespace SourceAtlas

inductive Language where
  | rust
  | python
  | java
  | javascript
  | csharp
  deriving Repr, DecidableEq

namespace Language

def all : List Language := [rust, python, java, javascript, csharp]

def tag : Language → String
  | rust => "rust"
  | python => "python"
  | java => "java"
  | javascript => "javascript"
  | csharp => "csharp"

/-- The file extensions of a language; no two languages share one. -/
def extensions : Language → List String
  | rust => ["rs"]
  | python => ["py"]
  | java => ["java"]
  | javascript => ["js", "jsx", "mjs", "cjs"]
  | csharp => ["cs"]

def functionKinds : Language → List String
  | rust => ["function_item"]
  | python => ["function_definition"]
  | java => ["method_declaration", "constructor_declaration"]
  | javascript => ["function_declaration", "generator_function_declaration", "method_definition"]
  | csharp => ["method_declaration", "constructor_declaration", "local_function_statement"]

def classKinds : Language → List String
  | rust => ["impl_item", "trait_item"]
  | python => ["class_definition"]
  | java =>
      ["class_declaration", "interface_declaration", "enum_declaration", "record_declaration"]
  | javascript => ["class_declaration", "class"]
  | csharp =>
      ["class_declaration", "struct_declaration", "interface_declaration", "record_declaration"]

def callKinds : Language → List String
  | rust => ["call_expression"]
  | python => ["call"]
  | java => ["method_invocation"]
  | javascript => ["call_expression"]
  | csharp => ["invocation_expression"]

/-- Call names of one language that carry no documentation value. -/
def noiseWords : Language → List String
  | rust =>
      ["unwrap", "unwrap_or", "unwrap_or_else", "unwrap_or_default", "expect", "clone",
       "to_string", "to_owned", "into", "from", "as_ref", "as_str", "as_mut", "iter",
       "iter_mut", "into_iter", "collect", "ok", "err", "ok_or", "ok_or_else", "map_err",
       "and_then", "is_some", "is_none", "is_ok", "is_err", "borrow", "borrow_mut",
       "lock", "default", "some", "box", "vec", "push", "push_str", "pop", "is_empty",
       "as_slice", "to_vec"]
  | python =>
      ["abs", "all", "any", "dir", "divmod", "id", "input", "isinstance", "issubclass",
       "iter", "next", "open", "repr", "round", "vars", "hasattr", "getattr", "setattr",
       "super", "enumerate", "zip", "sorted", "reversed", "items", "keys", "values",
       "setdefault", "strip", "lstrip", "rstrip", "startswith", "endswith",
       "str", "int", "float", "bool", "list", "dict", "set", "tuple", "type", "range",
       "min", "max", "sum", "append", "extend", "pop", "join", "split", "lower", "upper"]
  | java =>
      ["equals", "hashcode", "getclass", "valueof", "printstacktrace", "stream",
       "of", "isempty", "charat", "substring", "trim", "aslist", "length",
       "tolowercase", "touppercase", "startswith", "endswith"]
  | javascript =>
      ["then", "catch", "finally", "require", "parseint", "parsefloat", "stringify",
       "settimeout", "setinterval", "cleartimeout", "addeventlistener",
       "queryselector", "getelementbyid", "foreach", "reduce", "some", "every",
       "includes", "indexof", "slice", "splice", "concat", "shift", "unshift",
       "log", "push", "pop", "tolowercase", "touppercase", "trim"]
  | csharp =>
      ["writeline", "write", "readline", "tolist", "toarray", "select", "where",
       "firstordefault", "any", "count", "gettype", "dispose", "configureawait",
       "nameof", "equals", "gethashcode", "tolower", "toupper", "trim"]

end Language

abbrev LanguageSet := List Language

namespace LanguageSet

/-- The bundled languages that are named; other names are ignored. -/
def ofTags (tags : List String) : LanguageSet :=
  Language.all.filter fun language => tags.contains language.tag

def find? (languages : LanguageSet) (tag : String) : Option Language :=
  List.find? (fun language => language.tag == tag) languages

def detect? (languages : LanguageSet) (path : Path) : Option Language := do
  let extension ← path.extension?
  List.find? (fun language => language.extensions.contains extension) languages

end LanguageSet

end SourceAtlas
