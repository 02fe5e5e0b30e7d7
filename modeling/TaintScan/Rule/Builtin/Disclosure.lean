import TaintScan.Rule.Builtin.Pattern

/-! # Information disclosure

Exception detail and credentials that are sent to a visible channel.
-/
namespace TaintScan.Builtin

def exposure : Weakness :=
  { slug := "info-disclosure"
    category := .informationDisclosure
    severity := .medium
    severityFloor := .low
    message := "{callee} exposes {name}"
    cweId := "CWE-209"
    owaspCategory := "A04:2021-Insecure Design"
    sink := { requires := .of .secret } }

def disclosure : List Rule :=
  [ exposure.rule "java" "Exception or credential written to output (Java)"
      ["System.out.println", "System.err.println", "System.out.print", "getWriter().print",
        "getWriter().println", "getWriter().write", "logger.info", "logger.debug", "logger.error",
        "log.info", "log.debug", "log.error"] []
      "Log a generic message and keep exception detail and credentials out of responses and logs." [.java],
    { id := "vigil/info-disclosure/stack-trace"
      name := "Stack trace printed to the console"
      category := some .informationDisclosure
      severity := .low
      matcher := .syntactic (.forbiddenCall
        (patterns ["printStackTrace"]))
      confidence := .high
      message := "{callee} prints a stack trace"
      cweId := some "CWE-209"
      owaspCategory := some "A04:2021-Insecure Design"
      remediation :=
        "Log the exception through the application logger without exposing it to users."
      languages := [.java] },
    exposure.rule "csharp" "Exception or credential written to output (.NET)"
      ["Console.WriteLine", "Console.Write", "Response.Write", "Debug.WriteLine",
        "_logger.LogInformation"] []
      "Return a generic error and log detail server-side only." [.csharp],
    exposure.rule "javascript" "Exception or credential written to output (Node.js)"
      ["console.log", "console.error", "console.info", "res.send", "res.json", "res.write"] []
      "Send a generic error body and keep stack traces and credentials out of logs." [.javascript, .typescript],
    exposure.rule "python" "Exception or credential written to output (Python)"
      ["print", "logging.info", "logging.debug", "logging.error", "logger.info", "logger.debug",
        "logger.error", "jsonify", "traceback.print_exc"] []
      "Return a generic error and log detail through logging without credentials." [.python],
    exposure.rule "go" "Error or credential written to output (Go)"
      ["fmt.Println", "fmt.Printf", "fmt.Fprintf", "log.Println", "log.Printf", "http.Error"] []
      "Return a generic error to the client and keep credentials out of logs." [.go],
    exposure.rule "ruby" "Exception or credential written to output (Ruby)"
      ["puts", "p", "logger.info", "logger.debug", "Rails.logger.info", "render"] []
      "Render a generic error and filter credentials from logs." [.ruby],
    exposure.rule "php" "Exception or credential written to output (PHP)"
      ["echo", "print", "print_r", "var_dump", "printf"] []
      "Show a generic error page; log detail with error_log only." [.php] ]

end TaintScan.Builtin
