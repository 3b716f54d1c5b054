/-!
The style sheet of the page.
-/

namespace Rulewright.Service.Page

def styleSheet : String :=
  "\n".intercalate [
    "body \x7b",
    "  font-family: Arial, sans-serif;",
    "  overflow: scroll;",
    "\x7d",
    "",
    "h3 \x7b",
    "  background-color: #f8f9fa;",
    "  padding: 20px;",
    "  font-family: \"Arial\", sans-serif;",
    "  color: #333;",
    "  border-bottom: 1px solid #ddd;",
    "\x7d",
    "",
    "#playground-container \x7b",
    "  margin-top: 20px;",
    "\x7d",
    "",
    "#playground-container .CodeMirror,",
    "#output-container-scroll \x7b",
    "  height: auto;",
    "  max-height: 600px;",
    "  border: 1px solid #aaa;",
    "  margin-bottom: 20px;",
    "\x7d",
    "",
    "#playground-container .CodeMirror-scroll \x7b",
    "  height: auto;",
    "  max-height: 600px;",
    "\x7d",
    "",
    "#playground-container h5,",
    "#playground-container select,",
    "#playground-container .field,",
    "#playground-container label \x7b",
    "  display: inline-block;",
    "  margin: 10px 20px 10px 0;",
    "  vertical-align: middle;",
    "\x7d",
    "",
    "#playground-container #logging-checkbox,",
    "#playground-container #equal-checkbox \x7b",
    "  height: 15px;",
    "  vertical-align: middle;",
    "\x7d",
    "",
    "#playground-container .CodeMirror div.CodeMirror-cursor \x7b",
    "  border-left: 3px solid red;",
    "\x7d",
    "",
    "#output-container \x7b",
    "  padding: 0 10px;",
    "  margin: 0;",
    "\x7d",
    "",
    "#output-container-scroll \x7b",
    "  padding: 0;",
    "  position: relative;",
    "  margin-top: 0;",
    "  overflow: auto;",
    "\x7d",
    "",
    "a.highlighted \x7b",
    "  background-color: #ddd;",
    "  text-decoration: underline;",
    "\x7d",
    "",
    ".query-error \x7b",
    "  text-decoration: underline red dashed;",
    "  -webkit-text-decoration: underline red dashed;",
    "\x7d",
    "",
    "#explanation-container textarea \x7b",
    "  color: grey;",
    "\x7d",
    "#explanation-container textarea:focus \x7b",
    "  color: black;",
    "\x7d",
    "",
    "#path-container \x7b",
    "  background-color: #f8f9fa;",
    "  border: 1px solid #ddd;",
    "  border-radius: 5px;",
    "  padding: 20px;",
    "  margin: 20px 0;",
    "  box-shadow: 0px 0px 5px rgba(0, 0, 0, 0.1);",
    "\x7d",
    "",
    ".input-group-append .btn \x7b",
    "  margin-left: 10px;",
    "\x7d",
    "",
    "#submit-folder-button:hover \x7b",
    "  background-color: #0069d9;",
    "\x7d",
    ""]

end Rulewright.Service.Page
