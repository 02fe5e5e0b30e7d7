import TaintScan.Rule.Builtin.Pattern

/-! # Output sinks

Untrusted data that is written into a response or into a page.
-/
namespace TaintScan.Builtin

def responseOutput : Weakness :=
  { slug := "xss"
    category := .outputInjection
    severity := .high
    severityFloor := .medium
    message := "{callee} writes {name} into the response"
    cweId := "CWE-79" }

def pageOutput : Weakness := { responseOutput with message := "{callee} writes {name} into the page" }

def domOutput : Weakness := { pageOutput with sink.targets := ["innerHTML", "outerHTML"] }

def renderedOutput : Weakness :=
  { responseOutput with message := "{callee} renders {name} without escaping" }

def output : List Rule :=
  [ responseOutput.rule "java" "Untrusted data written to a servlet response"
      ["getWriter().print", "getWriter().println", "getWriter().write", "getOutputStream().print",
        "out.print", "out.println"] []
      "Encode output for its HTML context (OWASP Encoder, JSTL c:out) before writing it." [.java],
    responseOutput.rule "csharp" "Untrusted data written to an ASP.NET response"
      ["Response.Write", "Html.Raw", "new HtmlString", "Content"] []
      "Let Razor encode output; avoid Html.Raw and Response.Write with request data." [.csharp],
    domOutput.rule "javascript" "Untrusted data written to a response or the DOM"
      ["res.send", "res.write", "res.end", "response.send", "response.write", "document.write",
        "document.writeln", "insertAdjacentHTML", "dangerouslySetInnerHTML"] []
      "Use textContent or a templating engine that escapes by default; escape before res.send." [.javascript, .typescript],
    renderedOutput.rule "python" "Untrusted data rendered without escaping (Flask / Django)"
      ["HttpResponse", "make_response", "Response", "render_template_string", "Markup", "mark_safe"]
        []
      "Render through an auto-escaping template instead of building HTML strings." [.python],
    responseOutput.rule "go" "Untrusted data written to an http.ResponseWriter"
      ["fmt.Fprintf", "fmt.Fprint", "fmt.Fprintln", "io.WriteString", "w.Write", "template.HTML"] []
      "Render through html/template; never wrap request data in template.HTML." [.go],
    renderedOutput.rule "ruby" "Untrusted data rendered without escaping (Rails)"
      ["raw", "render"] []
      "Let ERB escape output; avoid raw and render inline with request data." [.ruby],
    pageOutput.rule "php" "Untrusted data echoed into the page"
      ["echo", "print", "printf", "vprintf"] []
      "Wrap output in htmlspecialchars($value, ENT_QUOTES, 'UTF-8')." [.php] ]

end TaintScan.Builtin
