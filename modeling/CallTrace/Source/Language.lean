/-
The languages of source files, told from the extensions of their names.
-/
import CallTrace.Files.Path
import CallTrace.Text.Case

namespace CallTrace.Source

/-- The extensions of source files, in small letters. -/
def languages : List (String × String) :=
  [(".java", "java"), (".ts", "typescript"), (".tsx", "typescript"),
   (".js", "javascript"), (".jsx", "javascript"), (".py", "python"),
   (".cs", "csharp"), (".cpp", "cpp"), (".cc", "cpp"), (".cxx", "cpp"),
   (".h", "c"), (".c", "c"), (".go", "go"), (".rs", "rust"),
   (".kt", "kotlin"), (".scala", "scala")]

/-- The language of a file by the extension of its name, in any letter
case. -/
def languageOfName? (name : String) : Option String :=
  let ext := String.ofList (Text.lower (Files.extension name).toList)
  (languages.find? (·.1 == ext)).map (·.2)

/-- The language of the file at a path. -/
def languageOfPath (path : String) : String :=
  (languageOfName? (Files.nameOf path)).getD "unknown"

end CallTrace.Source
