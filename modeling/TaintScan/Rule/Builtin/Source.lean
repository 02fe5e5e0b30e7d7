import TaintScan.Rule.Builtin.Pattern

/-! # Sources

Calls and member paths that give untrusted input, by language.
-/
namespace TaintScan.Builtin

def sources : List Rule :=
  [ { id := "vigil/source/java-servlet"
      name := "Servlet request input"
      matcher := .source
        { callees := patterns ["getParameter", "getParameterValues", "getParameterMap", "getHeader",
            "getHeaders", "getQueryString", "getCookies", "getInputStream", "getReader",
            "getPathInfo", "getRequestURI"] }
      languages := [.java] },
    { id := "vigil/source/csharp-request"
      name := "ASP.NET request input"
      matcher := .source
        { callees := patterns ["Console.ReadLine"]
          paths := ["Request.QueryString", "Request.Form", "Request.Params", "Request.Cookies",
            "Request.Headers", "Request.Query"] }
      languages := [.csharp] },
    { id := "vigil/source/node-request"
      name := "Node.js request and browser input"
      matcher := .source
        { callees := patterns ["prompt"]
          paths := ["req.query", "req.body", "req.params", "req.headers", "req.cookies",
            "request.query", "request.body", "request.params", "location.search", "location.hash",
            "location.href", "document.cookie", "document.URL", "process.argv"] }
      languages := [.javascript, .typescript] },
    { id := "vigil/source/python-web"
      name := "Flask / Django request input"
      matcher := .source
        { callees := patterns ["input", "raw_input", "request.get", "request.get_json"]
          paths := ["request.args", "request.form", "request.values", "request.cookies",
            "request.headers", "request.json", "request.data", "request.files", "request.GET",
            "request.POST", "request.COOKIES", "request.body", "sys.argv"] }
      languages := [.python] },
    { id := "vigil/source/go-http"
      name := "net/http request input"
      matcher := .source
        { callees := patterns ["FormValue", "PostFormValue", "URL.Query", "Cookie", "Header.Get"]
          paths := ["r.Form", "r.PostForm", "r.URL.RawQuery", "r.URL.Path", "r.Body", "os.Args"] }
      languages := [.go] },
    { id := "vigil/source/ruby-rails"
      name := "Rails request input"
      matcher := .source
        { callees := patterns ["gets"]
          paths := ["params", "request.params", "request.query_string", "cookies", "ARGV"] }
      languages := [.ruby] },
    { id := "vigil/source/php-superglobals"
      name := "PHP superglobals"
      matcher := .source
        { paths := ["$_GET", "$_POST", "$_REQUEST", "$_COOKIE", "$_FILES", "$_SERVER"] }
      languages := [.php] } ]

end TaintScan.Builtin
