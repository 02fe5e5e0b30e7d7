import TaintScan.Rule.Builtin.Pattern

/-! # Path traversal

Calls on the file system that untrusted input reaches.
-/
namespace TaintScan.Builtin

def pathTraversal : Weakness :=
  { slug := "path-traversal"
    category := .pathTraversal
    severity := .high
    severityFloor := .medium
    message := "{callee} opens a path derived from {name}"
    cweId := "CWE-22"
    owaspCategory := "A01:2021-Broken Access Control" }

def files : List Rule :=
  [ pathTraversal.rule "java" "File path built from untrusted input (Java)"
      ["new File", "new FileInputStream", "new FileOutputStream", "new FileReader",
        "new FileWriter", "Files.readAllBytes", "Files.readAllLines", "Files.newInputStream",
        "Files.write", "Files.delete"] []
      "Resolve the path against a fixed base directory and reject results outside it." [.java],
    pathTraversal.rule "csharp" "File path built from untrusted input (.NET)"
      ["File.ReadAllText", "File.ReadAllBytes", "File.WriteAllText", "File.Delete", "File.OpenRead",
        "new FileStream", "new StreamReader"] []
      "Use Path.GetFullPath and verify the result starts with the allowed base directory." [.csharp],
    pathTraversal.rule "javascript" "File path built from untrusted input (Node.js fs)"
      ["fs.readFile", "fs.readFileSync", "fs.writeFile", "fs.writeFileSync", "fs.createReadStream",
        "fs.unlink", "res.sendFile", "res.download"] [0]
      "Resolve with path.resolve against a base directory and check the prefix." [.javascript, .typescript],
    pathTraversal.rule "python" "File path built from untrusted input (Python)"
      ["open", "io.open", "send_file", "send_from_directory", "os.remove", "os.unlink",
        "shutil.rmtree"] [0]
      "Use werkzeug's safe_join or check os.path.realpath against the base directory." [.python],
    pathTraversal.rule "go" "File path built from untrusted input (Go)"
      ["os.Open", "os.OpenFile", "os.ReadFile", "os.Remove", "ioutil.ReadFile", "http.ServeFile"] []
      "Clean the path with filepath.Clean and verify it stays under the base directory." [.go],
    pathTraversal.rule "ruby" "File path built from untrusted input (Ruby)"
      ["File.open", "File.read", "File.write", "File.delete", "IO.read", "send_file"] [0]
      "Expand the path and verify it stays under the base directory before opening it." [.ruby],
    pathTraversal.rule "php" "File path built from untrusted input (PHP)"
      ["fopen", "file_get_contents", "file_put_contents", "readfile", "file", "unlink", "include",
        "require"] [0]
      "Use basename() on user input and realpath() checks against the base directory." [.php] ]

end TaintScan.Builtin
