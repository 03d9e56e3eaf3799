import SeededArt.Shader.Template
/-!
# The default template

GLSL ES 1.00 sources with one helper function for every name that the grammars of the library emit.
Two uniforms are left to the backend: the size of the canvas and the scale of the coordinates.
-/

namespace SeededArt.Glsl

/-- The uniform that carries the size of the canvas in pixels. -/
def resolutionUniform : String := "resolution"

/-- The uniform that carries the scale of the coordinates. -/
def scaleUniform : String := "scale"

/-- The placeholder of the default template. -/
def placeholder : String := "EXPRESSION"

/-- The attribute that carries the corners of the quad. -/
def positionAttribute : String := "position"

/-- Two triangles that cover the canvas, each corner as x and y. -/
def fullscreenQuad : List Float32 :=
  [1.0, 1.0, -1.0, 1.0, -1.0, -1.0, -1.0, -1.0, 1.0, -1.0, 1.0, 1.0]

def vertex : String :=
  "#version 100\n\nattribute vec3 position;\n\nvoid main()\n\x7b\n" ++
    "    gl_Position = vec4(position.x, position.y, 0, 1.0);\n\x7d\n"

/-- The definition of a helper function with a body of one statement. -/
def helper (signature statement : String) : String :=
  signature ++ " \x7b\n    " ++ statement ++ "\n\x7d\n"

/-- The definitions of all helper functions and of the main function. -/
def helpers : List String :=
  [helper "float get_x()" "return (gl_FragCoord.x/resolution.x)*2.0*scale - scale;",
    helper "float get_y()" "return (gl_FragCoord.y/resolution.y)*2.0*scale - scale;",
    helper "float get_abs_x()" "return abs(get_x());",
    helper "float get_abs_y()" "return abs(get_y());",
    helper "float get_distance()" "return length(vec2(get_x(), get_y()));",
    helper "float csin(float a)" "return sin(a * M_PI);",
    helper "float ccos(float a)" "return cos(a * M_PI);",
    helper "float ctan(float a)" "return tan(a * M_PI);",
    helper "float refl(float a)" "return a;",
    helper "float add(float a, float b)" "return min(a + b, 1.0);",
    helper "float mul(float a, float b)" "return a * b;",
    helper "float sqrt_abs(float a)" "return sqrt(abs(a));",
    helper "float A(float a)" "return a;",
    helper "vec4 E(float c1, float c2, float c3)" "return vec4(c1, c2, c3, 1.0);",
    helper "void main()" "gl_FragColor = EXPRESSION;"]

def fragment : String :=
  "#version 100\n\nprecision highp float;\nuniform vec2 resolution;\nuniform float scale;\n\n" ++
    "#define M_PI 3.1415926535897932384626433832795\n\n" ++
    "\n".intercalate helpers

def template : Template := ⟨vertex, fragment, placeholder⟩

end SeededArt.Glsl
