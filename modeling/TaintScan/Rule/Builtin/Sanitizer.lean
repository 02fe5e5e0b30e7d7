import TaintScan.Rule.Builtin.Pattern

/-! # Sanitizers

Calls that clean a value. A full sanitizer removes labels from its result; a partial one only marks
the value, which lowers the severity of a finding that it reaches.
-/
namespace TaintScan.Builtin

def sanitizers : List Rule :=
  [ { id := "vigil/sanitizer/numeric"
      name := "Numeric conversion"
      matcher := .sanitizer
        { callees := patterns ["parseInt", "parseFloat", "Number", "Integer.parseInt",
            "Integer.valueOf", "Long.parseLong", "Long.valueOf", "Double.parseDouble", "int.Parse",
            "int.TryParse", "Convert.ToInt32", "strconv.Atoi", "strconv.ParseInt",
            "strconv.ParseFloat", "int", "float", "intval", "floatval", "to_i", "to_f", "Integer",
            "UUID.fromString"] } },
    { id := "vigil/sanitizer/html-escape"
      name := "HTML escaping"
      matcher := .sanitizer
        { callees := patterns ["htmlspecialchars", "htmlentities", "html.escape", "escape",
            "markupsafe.escape", "escapeHtml", "escapeHTML", "Encode.forHtml", "encodeForHTML",
            "StringEscapeUtils.escapeHtml4", "HtmlUtils.htmlEscape", "HttpUtility.HtmlEncode",
            "WebUtility.HtmlEncode", "HtmlEncoder.Default.Encode", "html.EscapeString",
            "template.HTMLEscapeString", "CGI.escapeHTML", "html_escape", "h", "DOMPurify.sanitize",
            "sanitize"] } },
    { id := "vigil/sanitizer/shell-quote"
      name := "Shell quoting"
      matcher := .sanitizer
        { callees := patterns ["shlex.quote", "pipes.quote", "escapeshellarg", "escapeshellcmd",
            "Shellwords.escape", "shellescape"] }
      languages := [.python, .php, .ruby] },
    { id := "vigil/sanitizer/sql-quote"
      name := "SQL literal escaping"
      matcher := .sanitizer
        { callees := patterns ["addslashes", "mysqli_real_escape_string",
            "mysql_real_escape_string", "real_escape_string", "pg_escape_string", "PDO.quote",
            "quote", "sanitize_sql"]
          isPartial := true } },
    { id := "vigil/sanitizer/path-basename"
      name := "Path basename"
      matcher := .sanitizer
        { callees := patterns ["basename", "path.basename", "os.path.basename", "Path.GetFileName",
            "FilenameUtils.getName", "filepath.Base", "File.basename", "secure_filename"] } },
    { id := "vigil/sanitizer/input-filter"
      name := "Generic input filtering"
      matcher := .sanitizer
        { callees := patterns ["strip_tags", "filter_var", "filter_input"]
          isPartial := true } } ]

end TaintScan.Builtin
