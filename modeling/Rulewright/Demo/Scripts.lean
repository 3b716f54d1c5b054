import Rulewright.Demo.Stage

/-!
The demos: each runs the engine on sample code and checks what it reports and changes.
-/

namespace Rulewright.Demo

def replaceWithCleanup : DemoM Unit := do
  log "Running the Find/Replace Custom Cleanup demo for Java"
  expectChange "find_replace_custom_cleanup/java/SomeClass.java"
    (configured "java" "find_replace_custom_cleanup/java" "find_replace_custom_cleanup/java/configurations"
      [("input_type_name", "ArrayList")] false)
  print "Running the Find/Replace Custom Cleanup demo for Python"
  expectChange "find_replace_custom_cleanup/python/only_lists.py"
    (configured "py" "find_replace_custom_cleanup/python" "find_replace_custom_cleanup/python/configurations"
      [("str_literal", "dependency2"), ("str_to_replace", "dependency1"), ("str_replacement", "dependency1_1")] false)
  log "Completed running the Find/Replace Custom Cleanup demos"

def replace : DemoM Unit := do
  log "Running the Find/Replace demo for Swift"
  expectChange "find_replace/swift/Sample.swift"
    (configured "swift" "find_replace/swift/Sample.swift" "find_replace/swift/configurations"
      [("stale_flag_name", "test_second_experiment")] true)
  log "Running the Find/Replace demo for Java"
  expectChange "find_replace/java/TestEnum.java"
    (configured "java" "find_replace/java/TestEnum.java" "find_replace/java/configurations"
      [("stale_flag_name", "STALE_FLAG")] true)
  print "Completed running the Find/Replace demos"

def finding (announcement language : String) (expected : List (String × Nat)) : DemoM Unit := do
  log announcement
  let folder := "match_only/" ++ language
  let summaries ← execute (configured language folder (folder ++ "/configurations") [] false)
  match summaries with
  | [] => throw (.outOfRange .list)
  | s :: _ => assert (expected.all fun (rule, n) => s.hits.count rule == n)

def find : DemoM Unit := do
  finding "Running the Match-only demo for Java" "java"
    [("find_fooBar_anywhere", 2), ("find_barFoo_in_non_static_method", 1)]
  finding "Running the Match-only demo for go" "go" [("find_go_stmt_for_loop", 1), ("find_for", 4)]
  finding "Running the Match-only demo for TypeScript" "ts"
    [("find_fors", 3), ("find_fors_within_functions", 2), ("find_fors_within_functions_not_within_whiles", 1)]
  finding "Running the Match-only demo for TypeScript with React" "tsx"
    [("find_jsx_elements", 4), ("find_props_identifiers_within_b_jsx_elements", 2),
      ("find_props_identifiers_within_variable_declarators_not_within_divs", 2)]
  log "Completed running the Match-only demo"

def removingFlag (announcement language kept removed : String) : DemoM Unit := do
  log announcement
  let folder := "feature_flag_cleanup/" ++ language
  let old ← changed (folder ++ "/" ++ kept)
  let summaries ← execute
    (configured language folder (folder ++ "/configurations")
      [("stale_flag_name", "SAMPLE_STALE_FLAG"), ("treated", "true"), ("treated_complement", "false")] false)
  assert (summaries.length == 2)
  assert (summaries.all fun s => 0 < s.edits)
  assert (old < (← changed (folder ++ "/" ++ kept)))
  assert ((← get).deleted.contains (folder ++ "/" ++ removed))

def removeFlags : DemoM Unit := do
  removingFlag "Running the stale feature flag cleanup demo for Java" "java" "SampleClass.java" "TestEnum.java"
  removingFlag "Running the stale feature flag cleanup demo for Kotlin" "kt" "SampleClass.kt" "TestEnum.kt"
  print "Completed running the stale feature flag cleanup demos"

def exceptionRule : Engine.PlainRule :=
  { name := "Match Exception Definition"
    query := "(\n        (exception_definition (identifier) @exception_name) @exception_definition\n" ++
      "        (#match? @exception_name \"@input_exception_name\")\n        )"
    replaceNode := "exception_definition"
    replace := "@exception_definition(\n    rpc.code = \"@rpc_code\"\n)"
    filters := [{ matcher := "(exception_definition) @c_e", notContains := ["(annotation_definition) @ad"] }]
    holes := ["input_exception_name", "rpc_code"] }

def statusCodes : List (String × String) :=
  [("Invalid", "INVALID_ARGUMENT"), ("BadRequest", "INVALID_ARGUMENT"), ("UserNotAllowed", "INVALID_ARGUMENT"),
    ("Precondition", "FAILED_PRECONDITION"), ("Range", "OUT_OF_RANGE"), ("Unauthenticated", "UNAUTHENTICATED"),
    ("Permission", "PERMISSION_DENIED"), ("NotFound", "NOT_FOUND"), ("DoesNotExist", "NOT_FOUND"),
    ("Aborted", "ABORTED"), ("Exists", "ALREADY_EXISTS"), ("Exhausted", "RESOURCE_EXHAUSTED"),
    ("Cancelled", "CANCELLED"), ("DataLoss", "DATA_LOSS"), ("UnknownError", "UNKNOWN"),
    ("UnknownException", "UNKNOWN"), ("InternalError", "INTERNAL"), ("InternalException", "INTERNAL"),
    ("ServiceError", "INTERNAL"), ("ServiceException", "INTERNAL"), ("ServerError", "INTERNAL"),
    ("ServerException", "INTERNAL"), ("Unimplemented", "UNIMPLEMENTED"), ("Unavailable", "UNAVAILABLE"),
    ("DeadlineExceeded", "DEADLINE_EXCEEDED")]

def annotate : List (String × String) → DemoM Unit
  | [] => pure ()
  | (name, code) :: rest => do
    let summaries ← execute
      { input := .codebase (.str "find_replace/thrift/sample.thrift"), language := .str "thrift"
        program := .rules [exceptionRule]
        substitutions := some (.dict [("input_exception_name", .str name), ("rpc_code", .str code)]) }
    print ("[" ++ ", ".intercalate (summaries.map fun _ => "summary") ++ "]")
    annotate rest

def annotateExceptions : DemoM Unit := do
  annotate statusCodes
  print "Completed running Thrift refactoring"

inductive Kind where
  | replaceWithCleanup
  | replace
  | find
  | removeFlags
  | annotateExceptions
  deriving DecidableEq, Repr

def Kind.level : Kind → Nat
  | .removeFlags => 10
  | _ => 20

def Kind.run : Kind → DemoM Unit
  | .replaceWithCleanup => Demo.replaceWithCleanup
  | .replace => Demo.replace
  | .find => Demo.find
  | .removeFlags => Demo.removeFlags
  | .annotateExceptions => Demo.annotateExceptions

end Rulewright.Demo
