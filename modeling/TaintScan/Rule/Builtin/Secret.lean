import TaintScan.Rule.Builtin.Pattern

/-! # Hard-coded credentials

A string literal that is assigned to a name with a listed word in it.
-/
namespace TaintScan.Builtin

def secrets : List Rule :=
  [ { id := "vigil/hardcoded-secret/assignment"
      name := "Credential assigned from a string literal"
      category := some .hardcodedSecret
      severity := .critical
      severityFloor := .high
      matcher := .syntactic (.hardcodedSecret
        ["password", "passwd", "pwd", "passphrase", "secret", "apikey", "key", "token",
          "credential", "credentials", "auth"])
      message := "{target} is assigned a hard-coded credential"
      cweId := some "CWE-798"
      owaspCategory := some "A07:2021-Identification and Authentication Failures"
      remediation := "Load credentials from the environment or a secret manager at runtime." } ]

end TaintScan.Builtin
