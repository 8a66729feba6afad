import TensorFusion.Template.Basic

/-!
# Template — Standard

The templates for the convolutions of inference networks, with a bias, a normalization and an
activation behind them.
-/

namespace TensorFusion.Template

/-- The second operand of an addition becomes the bias. -/
def biasRenaming : Renaming := [(.text "Y", .text "Bias")]

/-- The parameters of a normalization are set apart from the bias of an addition. -/
def normRenaming : Renaming :=
  [(.text "Scale", .text "BNScale"), (.text "Bias", .text "BNBias"),
    (.text "Mean", .text "BNMean"), (.text "Variance", .text "BNVariance")]

/-- A template that looks for a chain of types and is named like its fused type. -/
def ofChain (name first : String) (rest : List String)
    (rename : List (Atom × Renaming)) : Template where
  name := name
  root := .chain first (rest.map Value.text)
  fusedType := name
  rename := .ofList rename

def convAddNormRelu : Template :=
  ofChain "conv_add_batchnorm_relu" "conv2d" ["elementwise_add", "batch_norm", "relu"]
    [(.text "elementwise_add", biasRenaming), (.text "batch_norm", normRenaming)]

def convAdd : Template :=
  ofChain "conv_add" "conv2d" ["elementwise_add"] [(.text "elementwise_add", biasRenaming)]

def convNormRelu : Template :=
  ofChain "conv_bn_relu" "conv2d" ["batch_norm", "relu"] [(.text "batch_norm", normRenaming)]

def depthwiseNormRelu : Template :=
  ofChain "dwconv_bn_relu" "depthwise_conv2d" ["batch_norm", "relu"]
    [(.text "batch_norm", normRenaming)]

/-- The standard templates in the order in which they are tried. -/
def standard : List Template := [convAddNormRelu, convAdd, convNormRelu, depthwiseNormRelu]

def standardNamed (name : Value) : Except Error Template :=
  match name with
  | .atom _ => match standard.find? (·.name.same name) with
    | some t => .ok t
    | none => .error (.missing name)
  | _ => .error .wrongKind

end TensorFusion.Template
