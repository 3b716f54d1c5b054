/-!
What the chat is told: how rules are written, the task at hand, and the request for a filter.
-/

namespace Rulewright.Chat

def explanation : String :=
  "\n".intercalate [
    "",
    "Your task is to improve refactoring rules for Polyglot Piranha, a tool that uses tree-sitter for parsing and refactoring code.",
    "The rules are expressed in a domain-specific language (DSL) specific to Polyglot Piranha. Examples and explanations of the DSL will be provided below.",
    "",
    "You will be provided with the original and refactored code snippets, along with statically inferred rules verified by an algorithm. ",
    "However, these rules may appear unnatural since they were automatically generated. Your goal is to make them resemble rules written by humans",
    "",
    "Key requirements:",
    "    - The semantics of the rules should remain unchanged unless a specific request to alter them is made.",
    "    - Strive to simplify the rules as much as possible. Always simplify lengthy s-expressions.",
    "    - Explain each rule individually. Explain the rule in a way that a human can understand it.",
    "",
    "Please structure your response using toml and markdown format. Refer to the expected output format below, as it will be parsed automatically.",
    "",
    "========================= Piranha Rule Graph =========================",
    "",
    "Piranha is language to express cascading program transformation. ",
    "Each node in graph represents a transformation rule that identifies and modify specific code snippets. ",
    "The edges between rules specify when, and where each rule should be applied.",
    "",
    "========================= Piranha Rule Explanation =========================",
    "",
    "Rules are represented in TOML. Each rule should contain at least one rule with the following properties:",
    "",
    "- \"query\": Tree-sitter query to find the code pattern to refactor",
    "- \"replace_node\": The captured node in the query that will be replaced",
    "- \"replace_string\": Replacement string or pattern for the refactored code",
    "- \"holes\": Placeholders in your queries that will be instantiated at runtime",
    "- \"is_seed_rule\": Specifies whether this rule is an entry point for the rule graph.",
    "",
    "",
    "Additionally, the rule can have optional filters. Filters can have properties like \"enclosing_node\", ",
    "\"not_contains\", \"contains\", \"at_least\", \"at_most\". The filters are used to specify conditions for the rule to be applied.",
    "       ",
    "========================= Rule Format =========================",
    "",
    "```toml",
    "# Define your rule within this section",
    "[[rules]]",
    "# Provide a unique name for your rule",
    "name = \"your_rule_name\"",
    "",
    "# Write a Tree-sitter query to identify the code pattern for refactoring. The outer most node should always be captured.",
    "# The tree-sitter query depends on the language. The nodes you see here are for Java. You need to only use nodes in the TASK!",
    "query = \"\"\"(",
    "    (method_invocation name: (_) @name",
    "                       arguments: (argument_list) @args) @invk",
    "    (#eq? @name @hole1))",
    "\"\"\"",
    "",
    "# Specify the captured node from the query that will be replaced",
    "# Never add @ before the node name! Otherwise it will NOT compile!",
    "replace_node = \"invk\"",
    "",
    "# Replacement string that will substitute `replace_node`",
    "replace = \"X.other_string @args\"",
    "",
    "# Specify any placeholders in your queries that will be filled in at runtime",
    "# In our case hole1 is used in the query, but not defined. Therefore it is a hole.",
    "holes = [\"hole1\"]",
    "",
    "# Specify if this rule should be triggered first. If it depends on other rules, set to false",
    "is_seed_rule = true",
    "",
    "# If necessary, define filters for your rule",
    "[[rules.filters]]",
    "",
    "# This pattern should match any ancestor of the captured node (optional)",
    "enclosing_node = \"(your_enclosing_node_pattern) @your_capture_name\"",
    "",
    "# Define patterns that should not be present within the enclosing_node (optional)",
    "# Always use a list, even if you only have one pattern.",
    "not_contains = [",
    "    \"\"\"(",
    "    (identifier) @id",
    "    (#eq? @id \"x\"))",
    "    \"\"\",",
    "]",
    "# Define a pattern that should be present within the enclosing_node (optional)",
    "contains =",
    "    \"\"\"(",
    "    (identifier) @other_id",
    "    (#eq? @other_id \"y\"))",
    "    \"\"\"",
    "# Define the minimum and maximum number of children that should match the 'contains' pattern (optional)",
    "at_least = 1",
    "at_most = 5",
    "```",
    "",
    "========================= Edge Explanation =========================",
    "",
    "Edges allow rules to depend on each other, thus establishing a hierarchy or sequence of application among rules. ",
    "For instance, if a rule is defined to match a method invocation, another rule could be drafted to match a method declaration. ",
    "In this case, the method name identified from the declaration could be utilized within the invocation.",
    "",
    "An edge essentially describes the direction of dependency between two or more rules. It signifies that a particular rule ",
    "('from') is based on, or derives information from, one or more other rules ('to').",
    "",
    "Edges are also represented in the TOML format, and their structure is typically not modified unless there's a need to ",
    "change the dependencies between rules. Your main task, unless otherwise specified, is to ensure that the 'from' and 'to' ",
    "components of the edge correctly correspond to the names of your improved rules.",
    "",
    "========================= Edge Format =========================",
    "",
    "[[edges]]",
    "",
    "# Scope of the rule - usually \"Global\"",
    "scope = \"Global\"",
    "",
    "# Name of the rule that depends on other rules (your rule name)",
    "from = \"your_rule_name\"",
    "",
    "# List of rules that your rule depends on (could be one or multiple)",
    "to = [\"other_rule_name\", \"another_rule_name\"]",
    "",
    "========================= Expected output format =========================",
    "",
    "Your output should be a single TOML file containing the improved rules and edges, as well as an explanation in Markdown format.",
    "",
    "Rule Graph",
    "",
    "```toml",
    "[[rules]] # For each rule",
    "...",
    "",
    "[[edges]] # For each edge",
    "...",
    "```",
    "",
    "",
    "Explanation ",
    "",
    "```md",
    "#### `<your_rule_name1>`",
    "",
    "- <Your detailed explanation>",
    "- <Include multiple bullet points if necessary>",
    "",
    "",
    "#### `<your_rule_name2>`",
    "",
    "- <Your detailed explanation>",
    "- <Include multiple bullet points if necessary>",
    "",
    "```",
    "",
    "========================= Rule Examples =========================",
    "    "]

structure Holes where
  sourceCode : String
  sourceTree : String
  targetTree : String
  diff : String
  rules : String
  hints : String

def taskPrompt (h : Holes) : String :=
  "\n".intercalate [
    "",
    "========================= Task =========================",
    "",
    "=== Source code === ",
    "",
    h.sourceCode,
    "",
    "=== Tree-sitter representation (source code) ===",
    "",
    h.sourceTree,
    "",
    "=== Tree-sitter representation (target code) ===",
    "",
    h.targetTree,
    "",
    "=== Diff === ",
    "",
    h.diff,
    "",
    "=== Rules and edges to improve === ",
    "",
    h.rules,
    "",
    "=== Additional requirements === ",
    "",
    h.hints,
    "========================= Please simplify the rules and edges =========================",
    "",
    "Remember, the goal is to simplify the rules and edges as much as possible while still achieving the same result.",
    "You should only use nodes you see in the tree-sitter representation of the source code!!",
    "",
    "    "]

def filterPrompt (wish rule choices : String) : String :=
  "\n".intercalate [
    "",
    "Can you to further refine the following rule? Here is the request:",
    "    ",
    wish,
    "    ",
    "========================= Current rule =========================",
    "         ",
    rule,
    "",
    "========================= Task =========================",
    "",
    "Improve the rule by incorporating a filter. You are permitted to add only two types of filters: enclosing_node and contains. ",
    "You should also include an explanation for the new rule.",
    "",
    "You're allowed to add any number of filters and further restrict the nodes using #eq, #not-eq, and #match. ",
    "",
    "",
    "Key requirements:",
    "    - Structure your response using TOML and Markdown formatting for automatic parsing.",
    "    - You can ONLY chose filters from the list below. You may refine them but they should not deviate from the list.",
    "    - Be sure to use unique names for your capture groups to avoid overlapping with existing ones from the query!",
    "    - Make sure all the nodes are named. Every captured node should have a unique name, including the outermost node.",
    "    - Always surround enclosing_node and contains with parenthesis (...), including the #eq, #not-eq, and #match operators.",
    "",
    "",
    "========================= Expected output format =========================",
    "",
    "Rules",
    "",
    "```toml",
    "",
    "[[rules]]",
    "....",
    "",
    "[[rules.filters]] # filter 1",
    "enclosing_node = \"\"\"(class_declaration) @class\"\"\"",
    "contains = \"\"\"(",
    "    (identifier) @id (#eq? @id \"x\")",
    ")\"\"\"",
    "at_least = 1",
    "at_most = 1",
    "",
    "[[rules.filters]] # filter 2",
    "enclosing_node = \"\"\"(method_invocation) @invk\"\"\"",
    "",
    "[[rules.filters]] # filter 3",
    "enclosing_node = \"\"\"(class_declaration) @class\"\"\"",
    "contains = \"\"\"(",
    "(method_declaration",
    "    (modifiers) @modifiers",
    "    name: (identifier) @name) @decl",
    "    (#eq? @name \"x\")",
    ")",
    "```",
    "",
    "Explanation",
    "",
    "```md",
    "#### `<your_rule_name1>`",
    "",
    "- <Your detailed explanation>",
    "- <Include multiple bullet points if necessary>",
    "```",
    "",
    "========================= List of Filters =========================",
    "",
    "=== Potential filters for enclosing node ===",
    "",
    choices,
    "",
    "",
    "\"\"\"]",
    "",
    "========================= Errors to avoid =========================",
    "",
    "Not surrounding the query with parenthesis (...):",
    "enclosing_node = \"(identifier) @name) (#eq? @name \"x\")\"",
    "",
    "is wrong!! it should be:",
    "enclosing_node = \"\"\"((identifier) @name) (#eq? @name \"x\"))\"\"\"",
    "",
    "```",
    ""]

end Rulewright.Chat
