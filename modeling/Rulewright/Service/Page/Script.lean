/-!
The script that runs in the page.
-/

namespace Rulewright.Service.Page

def script : String :=
  "\n".intercalate [
    "(async () => \x7b",
    "  const elements = \x7b",
    "    codeInputBefore: document.getElementById(\"code-input-before\"),",
    "    codeIntputAfter: document.getElementById(\"code-input-after\"),",
    "    languageSelect: document.getElementById(\"language-select\"),",
    "    queryInput: document.getElementById(\"query-input\"),",
    "    gptExplanation: document.getElementById(\"gpt-rule-explanation\"),",
    "    explanationInput: document.getElementById(\"explanation-input\"),",
    "    submitFolderButton: document.getElementById(\"submit-button-folder\"),",
    "    submitButton: document.getElementById(\"submit-button\"),",
    "    submitButtonImprovement: document.getElementById(",
    "      \"submit-button-improvement\",",
    "    ),",
    "    testButton: document.getElementById(\"test-button\"),",
    "  \x7d;",
    "",
    "  elements.languageSelect.addEventListener(\"change\", handleLanguageChange);",
    "  handleLanguageChange();",
    "",
    "  const editors = \x7b",
    "    codeBefore: CodeMirror.fromTextArea(",
    "      elements.codeInputBefore,",
    "      editorOptions(\"javascript\"),",
    "    ),",
    "    codeAfter: CodeMirror.fromTextArea(",
    "      elements.codeIntputAfter,",
    "      editorOptions(\"javascript\"),",
    "    ),",
    "    queryEditor: CodeMirror.fromTextArea(",
    "      elements.queryInput,",
    "      editorOptions(\"toml\"),",
    "    ),",
    "    requirementsEditor: CodeMirror.fromTextArea(elements.explanationInput, \x7b",
    "      lineWrapping: true,",
    "    \x7d),",
    "  \x7d;",
    "",
    "  function editorOptions(mode) \x7b",
    "    return \x7b",
    "      lineNumbers: true,",
    "      showCursorWhenSelecting: true,",
    "      mode: mode,",
    "    \x7d;",
    "  \x7d",
    "",
    "  function loadScript(url, callback) \x7b",
    "    const script = document.createElement(\"script\");",
    "    script.type = \"text/javascript\";",
    "    script.src = url;",
    "    script.onload = callback;",
    "    document.body.appendChild(script);",
    "  \x7d",
    "",
    "  function handleLanguageChange() \x7b",
    "    const selectedLanguage = elements.languageSelect.value;",
    "    const langName =",
    "      selectedLanguage === \"java\" ? \"javascript\" : selectedLanguage;",
    "    const scriptUrl = `$\x7bcodeMirror\x7d/mode/$\x7blangName\x7d/$\x7blangName\x7d.js`;",
    "",
    "    loadScript(scriptUrl, function () \x7b",
    "      editors.codeBefore.setOption(\"mode\", langName);",
    "      editors.codeAfter.setOption(\"mode\", langName);",
    "    \x7d);",
    "  \x7d",
    "",
    "  function displayButton(disabled, textContent, name) \x7b",
    "    // Change the button ending in -name",
    "    const button = document.getElementById(\"submit-button-\" + name);",
    "    const buttonText = document.getElementById(\"button-text-\" + name);",
    "    const spinner = document.getElementById(\"spinner-\" + name);",
    "",
    "    button.disabled = disabled;",
    "    spinner.style.display = disabled ? \"inline-block\" : \"none\";",
    "    buttonText.textContent = textContent;",
    "    return button;",
    "  \x7d",
    "",
    "  const socket = io.connect(\"http://127.0.0.1:5000\");",
    "",
    "  elements.submitFolderButton.addEventListener(\"click\", async function () \x7b",
    "    emitRefactorEvent();",
    "  \x7d);",
    "",
    "  elements.submitButton.addEventListener(\"click\", async function () \x7b",
    "    emitInferEvent();",
    "  \x7d);",
    "",
    "  elements.submitButtonImprovement.addEventListener(\"click\", async function () \x7b",
    "    emitImproveEvent();",
    "  \x7d);",
    "",
    "  elements.testButton.addEventListener(\"click\", async function () \x7b",
    "    emitTestEvent();",
    "  \x7d);",
    "",
    "  // Add a function to emit test event",
    "  function emitTestEvent() \x7b",
    "    const sourceCode = editors.codeBefore.getValue();",
    "    const rules = editors.queryEditor.getValue();",
    "    const language = elements.languageSelect.value;",
    "    // Here you may want to adjust the data to fit your backend needs",
    "    socket.emit(\"test_rule\", \x7b",
    "      source_code: sourceCode,",
    "      rules: rules,",
    "      language: language,",
    "    \x7d);",
    "",
    "    let button = document.getElementById(\"test-button\");",
    "    button.disabled = true;",
    "  \x7d",
    "  function emitRefactorEvent() \x7b",
    "    const folderPath = document.getElementById(\"folder-input\").value;",
    "    const rules = editors.queryEditor.getValue();",
    "    const language = elements.languageSelect.value;",
    "    socket.emit(\"refactor_codebase\", \x7b",
    "      rules: rules,",
    "      folder_path: folderPath,",
    "      language: language,",
    "    \x7d);",
    "    displayButton(true, \"Processing...\", \"folder\");",
    "  \x7d",
    "",
    "  function emitInferEvent() \x7b",
    "    const sourceCode = editors.codeBefore.getValue();",
    "    const targetCode = editors.codeAfter.getValue();",
    "    const language = elements.languageSelect.value;",
    "    socket.emit(\"infer_piranha\", \x7b",
    "      source_code: sourceCode,",
    "      target_code: targetCode,",
    "      language: language,",
    "    \x7d);",
    "    // elements.submitButton.style.display = \"none\";",
    "    const button = displayButton(",
    "      true,",
    "      \"GPT is improving the rule ...\",",
    "      \"improvement\",",
    "    );",
    "    button.style.display = \"block\";",
    "  \x7d",
    "",
    "  function emitImproveEvent() \x7b",
    "    const requirements = editors.requirementsEditor.getValue();",
    "    const rules = editors.queryEditor.getValue();",
    "    const language = elements.languageSelect.value;",
    "    displayButton(true, \"Improving...\", \"improvement\");",
    "    socket.emit(\"improve_piranha\", \x7b",
    "      rules: rules,",
    "      requirements: requirements,",
    "      language: language,",
    "    \x7d);",
    "  \x7d",
    "",
    "  socket.on(\"infer_success\", function (data) \x7b",
    "    var converter = new showdown.Converter();",
    "    var markdown = converter.makeHtml(data.gpt_output);",
    "    console.log(data);",
    "",
    "    // update the explanation div",
    "    // document.getElementById(\"explanation\").innerHTML = markdown;",
    "",
    "    let button = document.getElementById(\"submit-button-improvement\");",
    "    displayButton(false, \"Successfully improved rule\", \"improvement\");",
    "    button.classList.add(\"btn-success\");",
    "    updateInterface(data.rule);",
    "",
    "    // Set a timeout to fade the button back to the original state",
    "    setTimeout(() => \x7b",
    "      button.classList.remove(\"btn-success\", \"btn-danger\");",
    "      displayButton(false, \"Improve rule\", \"improvement\");",
    "    \x7d, 3000);",
    "  \x7d);",
    "",
    "  socket.on(\"infer_error\", function (data) \x7b",
    "    console.log(data);",
    "",
    "    let button = document.getElementById(\"submit-button-improvement\");",
    "    displayButton(false, \"Unable to improve / generate rule\", \"improvement\");",
    "    button.classList.add(\"btn-danger\");",
    "",
    "    // Set a timeout to fade the button back to the original state",
    "    setTimeout(() => \x7b",
    "      button.classList.remove(\"btn-success\", \"btn-danger\");",
    "      displayButton(false, \"Improve rule\", \"improvement\");",
    "    \x7d, 3000);",
    "  \x7d);",
    "",
    "",
    "  socket.on(\"infer_progress\", function (data) \x7b",
    "    var converter = new showdown.Converter();",
    "    var markdown = converter.makeHtml(data.gpt_output);",
    "    console.log(data);",
    "",
    "    // update the explanation div",
    "    document.getElementById(\"explanation\").innerHTML = markdown;",
    "",
    "    updateInterface(data.rule);",
    "  \x7d);",
    "",
    "  socket.on(\"refactor_result\", function (data) \x7b",
    "    // change button to green to indicate success",
    "    // otherwise red to show error",
    "    // and then revert after timeout",
    "",
    "    let button = document.getElementById(\"submit-button-folder\");",
    "    if (data.result === true) \x7b",
    "      button.classList.add(\"btn-success\");",
    "      displayButton(false, \"Successfully refactored codebase\", \"folder\");",
    "    \x7d else \x7b",
    "      button.classList.add(\"btn-danger\");",
    "      displayButton(false, \"Unable to refactor codebase\", \"folder\");",
    "    \x7d",
    "",
    "    setTimeout(() => \x7b",
    "      button.classList.remove(\"btn-success\", \"btn-danger\");",
    "      displayButton(false, \"Apply rules\", \"folder\");",
    "    \x7d, 3000);",
    "  \x7d);",
    "",
    "  function updateTestButton(data, status, buttonText, editorValue) \x7b",
    "    console.log(data);",
    "    let button = document.getElementById(\"test-button\");",
    "    button.disabled = false;",
    "    button.classList.remove(\"btn-success\", \"btn-danger\");",
    "    button.classList.add(status);",
    "    button.textContent = buttonText;",
    "    editors.codeAfter.setValue(editorValue);",
    "",
    "    // Set a timeout to fade the button back to the original state",
    "    setTimeout(() => \x7b",
    "      button.classList.remove(\"btn-success\", \"btn-danger\");",
    "      button.classList.add(\"btn-primary\");",
    "      button.textContent = \"Apply rule to code before\";",
    "    \x7d, 3000);",
    "",
    "    return button;",
    "  \x7d",
    "",
    "  // Add a new socket listener for the test result",
    "  socket.on(\"test_result\", function (data) \x7b",
    "    return updateTestButton(data, \"btn-success\", \"Successfully applied rule\", data.refactored_code);",
    "  \x7d);",
    "",
    "  // Add a new socket listener for the test error",
    "  socket.on(\"test_error\", function (data) \x7b",
    "    return updateTestButton(data, \"btn-danger\", \"Error\", data.error);",
    "  \x7d);",
    "",
    "",
    "  function updateInterface(rule) \x7b",
    "    document.getElementById(\"query-container\").style.display = \"block\";",
    "    document.getElementById(\"gpt-rule-explanation-container\").style.display =",
    "      \"block\";",
    "    document.getElementById(\"explanation-container\").style.display = \"block\";",
    "    document.getElementById(\"path-container\").style.display = \"block\";",
    "    editors.queryEditor.setValue(rule);",
    "    if (editors.requirementsEditor.getValue() === \"\") \x7b",
    "      editors.requirementsEditor.setValue(\" \");",
    "    \x7d",
    "  \x7d",
    "\x7d)();",
    ""]

end Rulewright.Service.Page
