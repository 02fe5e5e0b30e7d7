import TaintScan.Rule.Builtin.Crypto
import TaintScan.Rule.Builtin.Disclosure
import TaintScan.Rule.Builtin.File
import TaintScan.Rule.Builtin.Injection
import TaintScan.Rule.Builtin.Output
import TaintScan.Rule.Builtin.Sanitizer
import TaintScan.Rule.Builtin.Secret
import TaintScan.Rule.Builtin.Source
import TaintScan.Rule.Registry

/-! # The built-in rules

All rules that come with the library, and registries that start from them.
-/
namespace TaintScan

def Rule.builtin : List Rule :=
  Builtin.sources ++ Builtin.sanitizers ++ Builtin.injection ++ Builtin.output ++ Builtin.crypto ++
    Builtin.secrets ++ Builtin.files ++ Builtin.disclosure

def Registry.withExtra (extra : List Rule) : Except LoadError Registry :=
  Registry.ofRules (Registry.orderById Rule.builtin ++ extra)

end TaintScan
