/-
What the oracle is asked.

The layout that is asked for is the one that replies are read in. The
reader of replies takes more than this layout, but the closer a reply stays
to it, the fewer calls are lost.
-/
import CallTrace.Run.Surroundings

namespace CallTrace.Oracle

open Run (Prompt)

/-- What the oracle is told about its task in general. -/
def systemText : String :=
  "You are a code execution tracer that documents method execution " ++
  "flow step-by-step, like a debugger walkthrough.\n\n" ++
  "Use the provided file content thoroughly: examine imports, " ++
  "check inheritance clauses (extends / implements / base classes) " ++
  "and look for overloads, private and static methods before " ++
  "deciding a method is absent. Only suggest classes you can see " ++
  "in imports, inheritance or the same file.\n"

/-- What the oracle is asked about one method. -/
def methodText (p : Prompt) : String :=
  "ANALYSIS TASK:\n" ++
  "Analyze the specified method within the provided source file. " ++
  "FIRST, determine if the method exists in the type.\n\n" ++
  "TARGET METHOD:\n" ++
  "Type: " ++ p.typeName ++ "\n" ++
  "Method: " ++ p.methodName ++ "\n" ++
  "Language: " ++ p.language ++ "\n\n" ++
  "FULL SOURCE FILE:\n" ++
  "```" ++ p.language ++ "\n" ++
  p.source ++ "\n" ++
  "```\n\n" ++
  "STEP 1 - METHOD DETECTION:\n" ++
  "Check whether \"" ++ p.methodName ++ "\" is declared in \"" ++
  p.typeName ++
  "\" (instance, static, private or package-private declarations " ++
  "all count).\n\n" ++
  "STEP 2 - IF THE METHOD EXISTS, answer with exactly this " ++
  "layout:\n\n" ++
  "## Method Analysis: " ++ p.typeName ++ "." ++ p.methodName ++ "()\n\n" ++
  "### Method Detection Result:\n" ++
  "Found\n\n" ++
  "#### Block 1: [Block Description]\n" ++
  "**Type**: " ++
  "[assignment|methodCall|conditional|loop|shortCircuit|return|exception]\n" ++
  "**Description**: [What this block does in plain English]\n\n" ++
  "**Execution Flow**:\n" ++
  "[Detailed step-by-step execution description]\n\n" ++
  "**Method Calls**:\n" ++
  "- **Call**: `TypeName.methodName(parameters)`\n" ++
  "  - **Classification**: " ++
  "[stepInto|objectLookup|external|notFound] ([Reasoning])\n" ++
  "  - **Expected Behavior**: [What this method likely does]\n" ++
  "  - **Condition**: [Only if the call runs conditionally, e.g. " ++
  "\"only if validate() returns true\"]\n\n" ++
  "#### Block 2: [Next Block Description]\n" ++
  "[Continue with remaining blocks in execution order...]\n\n" ++
  "Classification rules:\n" ++
  "- stepInto: application code in this codebase that should be " ++
  "traced further\n" ++
  "- objectLookup: getters, field or collection access, simple " ++
  "data lookups\n" ++
  "- external: standard library, framework, third-party or remote " ++
  "calls\n" ++
  "- notFound: you cannot tell what the call targets\n\n" ++
  "For short-circuit expressions such as `a() && b()` use a " ++
  "shortCircuit block, list both calls in evaluation order and " ++
  "give the second one a **Condition**.  Use the receiver's type " ++
  "name where you can infer it (`UserRepository.save(user)`, not " ++
  "`repo.save(user)`).  Calls on the current object use `" ++ p.typeName ++
  ".method(...)`.\n\n" ++
  "STEP 3 - IF THE METHOD IS NOT FOUND, answer with exactly this " ++
  "layout:\n\n" ++
  "### Method Not Found\n\n" ++
  "Method `" ++ p.methodName ++ "` not found in type `" ++ p.typeName ++
  "`\n\n" ++
  "#### Check Parent Types:\n" ++
  "- **Extends**: `ParentTypeName`\n" ++
  "- **Implements**: `InterfaceName`\n\n" ++
  "#### Alternative Classes:\n" ++
  "- `ImportedTypeName` - [why it might define " ++ p.methodName ++
  "]\n\n" ++
  "Generate the complete analysis following this format exactly.\n"

end CallTrace.Oracle
