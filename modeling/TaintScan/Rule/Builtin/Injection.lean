import TaintScan.Rule.Builtin.Pattern

/-! # Injection sinks

Database queries, shell commands, evaluated code and deserialized objects. A sink that takes a query
checks only the argument that carries it, so bound parameters beside it do not fire.
-/
namespace TaintScan.Builtin

def sql : Weakness :=
  { slug := "sql-injection"
    category := .sqlInjection
    message := "SQL passed to {callee} is built from {name}"
    cweId := "CWE-89"
    sink := { concatenation := true } }

def command : Weakness :=
  { slug := "command-injection"
    category := .commandInjection
    message := "Command passed to {callee} is built from {name}"
    cweId := "CWE-78"
    sink := { concatenation := true } }

def code : Weakness :=
  { slug := "code-injection"
    category := .codeInjection
    message := "{callee} evaluates code built from {name}"
    cweId := "CWE-95"
    sink := { concatenation := true } }

def bareCode : Weakness := { code with sink.bareUnresolved := true }

def executedCode : Weakness := { bareCode with message := "{callee} executes code built from {name}" }

def deserialization : Weakness :=
  { slug := "deserialization"
    category := .unsafeDeserialization
    message := "{callee} deserializes {name}"
    cweId := "CWE-502"
    owaspCategory := "A08:2021-Software and Data Integrity Failures" }

def injection : List Rule :=
  [ sql.rule "java" "SQL built from untrusted input (JDBC / JPA)"
      ["executeQuery", "executeUpdate", "execute", "addBatch", "prepareStatement", "createQuery",
        "createNativeQuery", "jdbcTemplate.query", "jdbcTemplate.queryForObject"] [0]
      "Use PreparedStatement with bound parameters instead of string concatenation." [.java],
    sql.rule "csharp" "SQL built from untrusted input (ADO.NET / EF)"
      ["new SqlCommand", "new OleDbCommand", "ExecuteSqlRaw", "ExecuteSqlCommand", "FromSqlRaw",
        "SqlQuery"] [0]
      "Use SqlParameter or FromSqlInterpolated instead of string concatenation." [.csharp],
    sql.rule "javascript" "SQL built from untrusted input (Node.js drivers)"
      ["query", "execute", "raw", "sequelize.query", "knex.raw"] [0]
      "Use placeholders (`?` / `$1`) and pass values separately." [.javascript, .typescript],
    sql.rule "python" "SQL built from untrusted input (DB-API / ORMs)"
      ["execute", "executemany", "executescript", "raw", "extra", "text"] [0]
      "Pass values as the second argument of execute() instead of formatting them into the query." [.python],
    sql.rule "go" "SQL built from untrusted input (database/sql)"
      ["Query", "QueryRow", "QueryContext", "Exec", "ExecContext", "Prepare", "Raw"] [0]
      "Use `?` / `$1` placeholders and pass values as extra arguments." [.go],
    sql.rule "ruby" "SQL built from untrusted input (ActiveRecord)"
      ["where", "find_by_sql", "exec_query", "execute", "select_all", "order", "joins",
        "count_by_sql"] [0]
      "Use hash conditions or `?` placeholders instead of string interpolation." [.ruby],
    sql.rule "php" "SQL built from untrusted input (PHP drivers)"
      ["mysql_query", "pg_query", "sqlite_query", "query", "exec", "prepare"] []
      "Use PDO prepared statements with bound parameters." [.php],
    sql.rule "php-mysqli" "SQL built from untrusted input (mysqli)"
      ["mysqli_query", "mysqli_multi_query"] [1]
      "Use mysqli prepared statements with bind_param." [.php],
    command.rule "java" "Shell command built from untrusted input (Java)"
      ["getRuntime().exec", "new ProcessBuilder"] []
      "Pass a fixed executable and an argument array; never build command strings." [.java],
    command.rule "csharp" "Shell command built from untrusted input (.NET)"
      ["Process.Start", "new ProcessStartInfo"] []
      "Use ProcessStartInfo.ArgumentList with a fixed executable." [.csharp],
    command.rule "javascript" "Shell command built from untrusted input (child_process)"
      ["child_process.exec", "child_process.execSync", "cp.exec", "cp.execSync", "exec", "execSync",
        "shell.exec"] [0]
      "Use execFile/spawn with an argument array and no shell." [.javascript, .typescript],
    command.rule "python" "Shell command built from untrusted input (os / subprocess)"
      ["os.system", "os.popen", "subprocess.call", "subprocess.run", "subprocess.Popen",
        "subprocess.check_call", "subprocess.check_output", "subprocess.getoutput",
        "commands.getoutput"] [0]
      "Call subprocess.run with an argument list and shell=False." [.python],
    command.rule "go" "Shell command built from untrusted input (os/exec)"
      ["exec.Command", "exec.CommandContext", "syscall.Exec"] []
      "Pass a fixed binary to exec.Command and user values as separate arguments." [.go],
    command.rule "ruby" "Shell command built from untrusted input (Ruby)"
      ["system", "exec", "spawn", "backtick", "IO.popen", "Open3.capture2", "Open3.capture3",
        "Open3.popen3"] []
      "Use the multi-argument form of system / Open3 so no shell is involved." [.ruby],
    command.rule "php" "Shell command built from untrusted input (PHP)"
      ["shell_exec", "exec", "system", "passthru", "popen", "proc_open", "backtick"] []
      "Avoid the shell; if unavoidable wrap every argument in escapeshellarg." [.php],
    bareCode.rule "eval" "Dynamic code evaluation"
      ["eval", "new Function", "vm.runInNewContext", "vm.runInThisContext"] [0]
      "Never evaluate strings as code; use a parser or a dispatch table." [.javascript, .typescript, .python, .ruby, .php],
    executedCode.rule "python-exec" "Dynamic code execution (Python)"
      ["exec", "compile"] [0]
      "Never execute strings as code; use ast.literal_eval for data." [.python],
    code.rule "ruby-eval" "Dynamic code evaluation (Ruby metaprogramming)"
      ["instance_eval", "class_eval", "module_eval", "send", "constantize"] [0]
      "Avoid string eval; use public_send with an allow-list of method names." [.ruby],
    code.rule "php-assert" "Dynamic code evaluation (PHP)"
      ["assert", "create_function"] []
      "Remove string evaluation; use closures instead of create_function." [.php],
    deserialization.rule "java" "Java object deserialization of request data"
      ["new ObjectInputStream", "new XMLDecoder", "XStream.fromXML", "fromXML"] []
      "Do not deserialize untrusted bytes; use a data format such as JSON with an explicit schema, or an ObjectInputFilter allow-list." [.java],
    deserialization.rule "csharp" ".NET binary deserialization of request data"
      ["Deserialize", "new BinaryFormatter"] []
      "Replace BinaryFormatter with System.Text.Json and explicit types." [.csharp],
    deserialization.rule "python" "Python deserialization of request data"
      ["pickle.loads", "pickle.load", "cPickle.loads", "marshal.loads", "shelve.open", "yaml.load",
        "yaml.unsafe_load", "jsonpickle.decode"] [0]
      "Use json, or yaml.safe_load; never unpickle untrusted data." [.python],
    deserialization.rule "ruby" "Ruby deserialization of request data"
      ["Marshal.load", "Marshal.restore", "YAML.load", "Psych.load"] [0]
      "Use JSON.parse or YAML.safe_load instead of Marshal / YAML.load." [.ruby],
    deserialization.rule "php" "PHP unserialize of request data"
      ["unserialize"] [0]
      "Use json_decode, or pass allowed_classes => false to unserialize." [.php],
    deserialization.rule "javascript" "node-serialize deserialization of request data"
      ["serialize.unserialize", "unserialize"] [0]
      "Use JSON.parse; never deserialize functions from request data." [.javascript, .typescript] ]

end TaintScan.Builtin
