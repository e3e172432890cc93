import BundleGraph.Module

/-!
# Bundle assembly

A bundle starts with the scripts of the module system and of the polyfills,
then comes a prelude that defines global variables, and then the modules of
the build.
-/

namespace BundleGraph

structure Prelude where
  dev : Bool := false
  /-- Further globals by name. -/
  globals : Json.Fields := []

namespace Prelude

def path : String := "__prelude__"

def environment (p : Prelude) : String := if p.dev then "development" else "production"

def definitions (p : Prelude) : List String :=
  ["__BUNDLE_START_TIME__=this.nativePerformanceNow?nativePerformanceNow():Date.now()",
    "__DEV__=" ++ toString p.dev,
    "process=this.process||\x7b\x7d"] ++
  (Json.sortFields p.globals).map fun (name, value) => name ++ "=" ++ value.canonicalText

/-- One variable statement, and the environment's name for code that asks. -/
def code (p : Prelude) : String :=
  "var " ++ String.intercalate "," p.definitions ++
    ";process.env=process.env||\x7b\x7d;process.env.NODE_ENV=process.env.NODE_ENV||\"" ++
    p.environment ++ "\";"

def script (p : Prelude) : Module := .script path p.code

end Prelude

/-- Lays out a bundle. Only the modules of the build are post-processed. -/
def assemble (build moduleSystem : List Module) (polyfills : List (List Module)) (p : Prelude)
    (postProcess : List Module → List Module) : List Module :=
  moduleSystem ++ polyfills.flatten ++ p.script :: postProcess build

end BundleGraph
