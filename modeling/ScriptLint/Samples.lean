/-!
Sample documents, with a line feed after every line.
-/
namespace ScriptLint.Samples
set_option autoImplicit false

def document (lines : List String) : String := String.join (lines.map fun line => line ++ "\n")

/-- Four scripts and one template. -/
def simple : String :=
  document
    ["<!DOCTYPE html>",
     "<html lang=\"en\">",
     "<head>",
     "  <meta charset=\"UTF-8\">",
     "  <title>Simple</title>",
     "  <script>",
     "    function greet() \x7b",
     "      console.log(\"hello\");",
     "    \x7d",
     "  </script>",
     "</head>",
     "<body>",
     "  <script type=\"text/javascript\">",
     "      console.log(\"indented more\");",
     "  </script>",
     "  <div>",
     "<script>",
     "  // script at column 1",
     "  var answer = 42;",
     "  console.log(answer);",
     "</script>",
     "  </div>",
     "  <script>console.log(\"same line\");</script>",
     "  <p>text</p>",
     "  <script type=\"text/template\">console.log(\"not javascript\")</script>",
     "</body>",
     "</html>"]

/-- Scripts whose opening tags are indented by 0, 2 and 8. -/
def indentation : String :=
  document
    ["<!DOCTYPE html>",
     "<html>",
     "<head>",
     "<script>",
     "function first() \x7b",
     "  return 1;",
     "\x7d",
     "</script>",
     "</head>",
     "<body>",
     "  <script>",
     "    function second() \x7b",
     "      return 2;",
     "    \x7d",
     "  </script>",
     "  <div>",
     "    <div>",
     "        <script>",
     "          function third() \x7b",
     "            return 3;",
     "          \x7d",
     "        </script>",
     "    </div>",
     "  </div>",
     "</body>",
     "</html>"]

def badIndent : String :=
  document
    ["<!DOCTYPE html>",
     "<html>",
     "<body>",
     "  <script>",
     "    var a = 1;",
     "    if (a) \x7b",
     "      a++;",
     "    \x7d",
     "  var b = 2;",
     "    var c = 3;",
     "  </script>",
     "</body>",
     "</html>"]

def cdataHtml : String :=
  document
    ["<!DOCTYPE html>",
     "<html>",
     "<head>",
     "  <script>",
     "    <![CDATA[",
     "      console.log(\"cdata\");",
     "    ]]>",
     "  </script>",
     "</head>",
     "</html>"]

def cdataXhtml : String :=
  document
    ["<?xml version=\"1.0\" encoding=\"UTF-8\"?>",
     "<!DOCTYPE html PUBLIC \"-//W3C//DTD XHTML 1.0 Strict//EN\" \"http://www.w3.org/TR/xhtml1/DTD/xhtml1-strict.dtd\">",
     "<html xmlns=\"http://www.w3.org/1999/xhtml\">",
     "<head>",
     "  <title>CDATA</title>",
     "  <script type=\"text/javascript\">",
     "    <![CDATA[",
     "      if (1 < 2) \x7b",
     "        console.log(\"cdata\");",
     "      \x7d",
     "    ]]>",
     "  </script>",
     "</head>",
     "</html>"]

def doubledSemicolons : String :=
  document
    ["<!DOCTYPE html>",
     "<html>",
     "<body>",
     "  <script>",
     "    var a = 1;;",
     "    function b() \x7b",
     "      return a;;",
     "    \x7d",
     "  </script>",
     "</body>",
     "</html>"]

end ScriptLint.Samples
